import BankFinder.CTokens

/-!
# Declarations of C constants

The declarations of a file of constant tables, read from its tokens: what is declared, and the
initializer as a tree. Every name is declared once, and what it stands for may depend on the
names before it.
-/

namespace BankFinder.CDeclarations
open CTokens

/-- An initializer. What stands in braces may name the member it is for. -/
inductive Init where
  | number (value : ℤ)
  | text (bytes : List UInt8)
  | name (n : List UInt8)
  | address (n : List UInt8)
  | braces (items : List (Option (List UInt8) × Init))

abbrev Item := Option (List UInt8) × Init

section
variable (readItems : List Token → Option (List Item × List Token))

def readValue : List Token → Option (Init × List Token)
  | .number n :: s => some (.number n, s)
  | .punct .minus :: .number n :: s => some (.number (-n), s)
  | .text bytes :: s => some (.text bytes, s)
  | .ident n :: s => some (.name n, s)
  | .punct .amp :: .ident n :: s => some (.address n, s)
  | .punct .lbrace :: s => (readItems s).map fun r => (.braces r.1, r.2)
  | _ => none

def readItem : List Token → Option (Item × List Token)
  | .punct .dot :: .ident n :: .punct .equals :: s =>
      (readValue readItems s).map fun r => ((some n, r.1), r.2)
  | s => (readValue readItems s).map fun r => ((none, r.1), r.2)

end

/-- Up to the closing brace; the last comma may be left out. -/
def readItems : ℕ → List Token → Option (List Item × List Token)
  | 0, _ => none
  | _ + 1, .punct .rbrace :: s => some ([], s)
  | fuel + 1, s => (readItem (readItems fuel) s).bind fun r => match r.2 with
      | .punct .comma :: s => (readItems fuel s).map fun q => (r.1 :: q.1, q.2)
      | .punct .rbrace :: s => some ([r.1], s)
      | _ => none

/-- These tokens are the initializer, whatever follows. -/
def Reads (p : List Token) (v : Init) : Prop :=
  ∀ fuel rest, p.length ≤ fuel → readValue (readItems fuel) (p ++ rest) = some (v, rest)

def ReadsItem (p : List Token) (item : Item) : Prop :=
  ∀ fuel rest, p.length ≤ fuel → readItem (readItems fuel) (p ++ rest) = some (item, rest)

/-- These tokens are the items up to the closing brace. -/
def ReadsItems (p : List Token) (items : List Item) : Prop :=
  ∀ fuel rest, p.length ≤ fuel → readItems fuel (p ++ rest) = some (items, rest)

theorem reads_number (n : ℕ) : Reads [.number n] (.number n) := fun _ _ _ => rfl

theorem reads_negative (n : ℕ) : Reads [.punct .minus, .number n] (.number (-n)) :=
  fun _ _ _ => rfl

theorem reads_text (bytes : List UInt8) : Reads [.text bytes] (.text bytes) := fun _ _ _ => rfl

theorem reads_name (n : List UInt8) : Reads [.ident n] (.name n) := fun _ _ _ => rfl

theorem reads_address (n : List UInt8) : Reads [.punct .amp, .ident n] (.address n) :=
  fun _ _ _ => rfl

theorem ReadsItems.braces {p : List Token} {items : List Item} (h : ReadsItems p items) :
    Reads (.punct .lbrace :: p) (.braces items) := by
  intro fuel rest hfuel
  rw [List.length_cons] at hfuel
  rw [List.cons_append, readValue, h fuel rest (by omega)]
  rfl

theorem Reads.named {p : List Token} {v : Init} (h : Reads p v) (n : List UInt8) :
    ReadsItem (.punct .dot :: .ident n :: .punct .equals :: p) (some n, v) := by
  intro fuel rest hfuel
  simp only [List.length_cons] at hfuel
  simp only [List.cons_append, readItem]
  rw [h fuel rest (by omega)]
  rfl

/-- No initializer begins with a dot or with a closing brace. -/
theorem Reads.head {p : List Token} {v : Init} (h : Reads p v) :
    ∃ t q, p = t :: q ∧ t ≠ .punct .dot ∧ t ≠ .punct .rbrace := by
  have hread := h p.length [] le_rfl
  cases p with
  | nil => cases hread
  | cons t q =>
      refine ⟨t, q, rfl, ?_, ?_⟩
      · rintro rfl
        cases hread
      · rintro rfl
        cases hread

theorem Reads.plain {p : List Token} {v : Init} (h : Reads p v) : ReadsItem p (none, v) := by
  intro fuel rest hfuel
  have hread := h fuel rest hfuel
  obtain ⟨t, q, rfl, hdot, -⟩ := h.head
  rw [List.cons_append] at hread ⊢
  rw [readItem, hread]
  · rfl
  · intro n s heq
    exact hdot (List.cons.inj heq).1

theorem ReadsItem.head {p : List Token} {item : Item} (h : ReadsItem p item) :
    ∃ t q, p = t :: q ∧ t ≠ .punct .rbrace := by
  have hread := h p.length [] le_rfl
  cases p with
  | nil => cases hread
  | cons t q =>
      refine ⟨t, q, rfl, ?_⟩
      rintro rfl
      cases hread

theorem readItems_succ {p : List Token} {item : Item} (h : ReadsItem p item) {fuel : ℕ}
    (hfuel : p.length ≤ fuel) (rest : List Token) :
    readItems (fuel + 1) (p ++ rest) = match rest with
      | .punct .comma :: s => (readItems fuel s).map fun q => (item :: q.1, q.2)
      | .punct .rbrace :: s => some ([item], s)
      | _ => none := by
  have hread := h fuel rest hfuel
  obtain ⟨t, q, rfl, hbrace⟩ := h.head
  rw [List.cons_append] at hread ⊢
  rw [readItems, hread]
  · rfl
  · intro s heq
    exact hbrace (List.cons.inj heq).1

theorem readsItems_nil : ReadsItems [.punct .rbrace] [] := by
  intro fuel rest hfuel
  cases fuel with
  | zero => cases hfuel
  | succ fuel => rfl

theorem ReadsItem.last {p : List Token} {item : Item} (h : ReadsItem p item) :
    ReadsItems (p ++ [.punct .rbrace]) [item] := by
  intro fuel rest hfuel
  rw [List.length_append, List.length_singleton] at hfuel
  obtain ⟨fuel, rfl⟩ : ∃ n, fuel = n + 1 := Nat.exists_eq_succ_of_ne_zero (by omega)
  rw [List.append_assoc, readItems_succ h (by omega)]
  rfl

theorem ReadsItem.cons {p q : List Token} {item : Item} {items : List Item}
    (h : ReadsItem p item) (hq : ReadsItems q items) :
    ReadsItems (p ++ .punct .comma :: q) (item :: items) := by
  intro fuel rest hfuel
  rw [List.length_append, List.length_cons] at hfuel
  obtain ⟨fuel, rfl⟩ : ∃ n, fuel = n + 1 := Nat.exists_eq_succ_of_ne_zero (by omega)
  rw [List.append_assoc, readItems_succ h (by omega), List.cons_append]
  simp only [hq fuel rest (by omega), Option.map_some]

/-- Items with a comma after each. -/
theorem readsItems_flatMap {A : Type*} {p : A → List Token} {item : A → Item} {xs : List A}
    (h : ∀ x ∈ xs, ReadsItem (p x) (item x)) :
    ReadsItems (xs.flatMap (fun x => p x ++ [.punct .comma]) ++ [.punct .rbrace])
      (xs.map item) := by
  induction xs with
  | nil => exact readsItems_nil
  | cons x xs ih =>
      have hrest := ih fun y hy => h y (List.mem_cons_of_mem _ hy)
      simpa using (h x (by simp)).cons hrest

/-- Items with commas between them. -/
theorem readsItems_intersperse {A : Type*} {p : A → List Token} {item : A → Item} {xs : List A}
    (h : ∀ x ∈ xs, ReadsItem (p x) (item x)) :
    ReadsItems (((xs.map p).intersperse [.punct .comma]).flatten ++ [.punct .rbrace])
      (xs.map item) := by
  induction xs with
  | nil => exact readsItems_nil
  | cons x xs ih =>
      have hfirst := h x (by simp)
      cases xs with
      | nil => simpa using hfirst.last
      | cons y ys =>
          have hrest := ih fun z hz => h z (List.mem_cons_of_mem _ hz)
          simpa using hfirst.cons hrest

/-- `static`, unless the name is exported, and `const`. -/
structure Decl where
  exported : Bool
  type : List UInt8
  pointer : Bool
  name : List UInt8
  array : Bool
  init : Init

/-- The bytes of `static`. -/
def wordStatic : List UInt8 := [0x73, 0x74, 0x61, 0x74, 0x69, 0x63]

/-- The bytes of `const`. -/
def wordConst : List UInt8 := [0x63, 0x6F, 0x6E, 0x73, 0x74]

def dropTokens (p s : List Token) : Bool × List Token :=
  if p <+: s then (true, s.drop p.length) else (false, s)

def readDecl (s : List Token) : Option (Decl × List Token) :=
  let (isStatic, s) := dropTokens [.ident wordStatic] s
  match s with
  | .ident qualifier :: .ident type :: s =>
      let (pointer, s) := dropTokens [.punct .star, .ident wordConst] s
      match s with
      | .ident name :: s =>
          let (array, s) := dropTokens [.punct .lbracket, .punct .rbracket] s
          match s with
          | .punct .equals :: s => (readValue (readItems s.length) s).bind fun r => match r.2 with
              | .punct .semicolon :: s =>
                  if qualifier = wordConst then
                    some (⟨!isStatic, type, pointer, name, array, r.1⟩, s)
                  else none
              | _ => none
          | _ => none
      | _ => none
  | _ => none

def readDecls : ℕ → List Token → Option (List Decl)
  | _, [] => some []
  | 0, _ :: _ => none
  | fuel + 1, c :: s => (readDecl (c :: s)).bind fun r => (readDecls fuel r.2).map (r.1 :: ·)

def given (b : Bool) (p : List Token) : List Token := if b then p else []

@[simp] theorem given_true (p : List Token) : given true p = p := rfl

@[simp] theorem given_false (p : List Token) : given false p = [] := rfl

/-- The tokens in front of the initializer. -/
def Decl.head (d : Decl) : List Token :=
  given (!d.exported) [.ident wordStatic] ++ (.ident wordConst :: .ident d.type ::
    (given d.pointer [.punct .star, .ident wordConst] ++ (.ident d.name ::
      (given d.array [.punct .lbracket, .punct .rbracket] ++ [.punct .equals]))))

/-- The tokens are this declaration. -/
def Decl.Written (d : Decl) (ts : List Token) : Prop :=
  ∃ p, Reads p d.init ∧ ts = d.head ++ p ++ [.punct .semicolon]

theorem dropTokens_given (b : Bool) {p s : List Token} (h : ¬p <+: s) :
    dropTokens p (given b p ++ s) = (b, s) := by
  cases b with
  | false => simp [dropTokens, h]
  | true => simp [dropTokens]

theorem readDecl_written {d : Decl} {ts : List Token} (h : d.Written ts) (rest : List Token) :
    readDecl (ts ++ rest) = some (d, rest) := by
  obtain ⟨p, hp, rfl⟩ := h
  have hread := hp (p ++ .punct .semicolon :: rest).length (.punct .semicolon :: rest) (by simp)
  have hstatic (s : List Token) : ¬[.ident wordStatic] <+: .ident wordConst :: s := by
    simp [wordStatic, wordConst]
  have hstar (s : List Token) : ¬[.punct .star, .ident wordConst] <+: .ident d.name :: s := by simp
  have hbracket (s : List Token) :
      ¬[.punct .lbracket, .punct .rbracket] <+: .punct .equals :: s := by simp
  have htokens : d.head ++ p ++ [.punct .semicolon] ++ rest =
      given (!d.exported) [.ident wordStatic] ++ (.ident wordConst :: .ident d.type ::
        (given d.pointer [.punct .star, .ident wordConst] ++ (.ident d.name ::
          (given d.array [.punct .lbracket, .punct .rbracket] ++ (.punct .equals ::
            (p ++ .punct .semicolon :: rest)))))) := by simp [Decl.head]
  rw [htokens, readDecl]
  simp only [dropTokens_given _ (hstatic _), dropTokens_given _ (hstar _),
    dropTokens_given _ (hbracket _), hread, Option.bind_some, if_true, Bool.not_not]

theorem readDecls_written {ds : List Decl} {ts : List (List Token)}
    (h : List.Forall₂ Decl.Written ds ts) {fuel : ℕ} (hfuel : ds.length ≤ fuel) :
    readDecls fuel ts.flatten = some ds := by
  induction h generalizing fuel with
  | nil =>
      cases fuel with
      | zero => rfl
      | succ => rfl
  | @cons d t ds ts hd hrest ih =>
      obtain ⟨fuel, rfl⟩ : ∃ n, fuel = n + 1 :=
        Nat.exists_eq_succ_of_ne_zero (Nat.ne_of_gt (lt_of_lt_of_le (by simp) hfuel))
      rw [List.length_cons, Nat.succ_le_succ_iff] at hfuel
      have hread := readDecl_written hd ts.flatten
      rw [List.flatten_cons]
      cases hs : t ++ ts.flatten with
      | nil =>
          rw [hs] at hread
          cases hread
      | cons c s =>
          rw [hs] at hread
          rw [readDecls, hread, Option.bind_some, ih hfuel, Option.map_some]

/-- The declarations of a text. -/
def readFile (text : List UInt8) : Option (List Decl) :=
  (lex text).bind fun ts => readDecls ts.length ts

/-- The text has these declarations, whatever follows it. -/
def Declares (text : List UInt8) (ds : List Decl) : Prop :=
  ∃ ts, List.Forall₂ Decl.Written ds ts ∧ Lexes text ts.flatten

theorem Decl.Written.ne_nil {d : Decl} {ts : List Token} (h : d.Written ts) : ts ≠ [] := by
  obtain ⟨p, -, rfl⟩ := h
  simp

theorem Declares.readFile {text : List UInt8} {ds : List Decl} (h : Declares text ds) :
    CDeclarations.readFile text = some ds := by
  obtain ⟨ts, hwritten, hlexes⟩ := h
  have hlength : ds.length ≤ ts.flatten.length := by
    clear hlexes
    induction hwritten with
    | nil => exact le_rfl
    | cons hd _ ih =>
        have hpos := List.length_pos_iff.mpr hd.ne_nil
        rw [List.flatten_cons, List.length_append, List.length_cons]
        omega
  rw [CDeclarations.readFile, hlexes.lex, Option.bind_some, readDecls_written hwritten hlength]

theorem declares_nil {text : List UInt8} (h : Lexes text []) : Declares text [] :=
  ⟨[], .nil, h⟩

theorem Decl.Written.declares {d : Decl} {ts : List Token} (h : d.Written ts) {text : List UInt8}
    (htext : Lexes text ts) : Declares text [d] :=
  ⟨[ts], .cons h .nil, by simpa using htext⟩

theorem Declares.append {p q : List UInt8} {ds es : List Decl} (hp : Declares p ds)
    (hq : Declares q es) : Declares (p ++ q) (ds ++ es) := by
  obtain ⟨ts, hds, hts⟩ := hp
  obtain ⟨us, hes, hus⟩ := hq
  refine ⟨ts ++ us, List.rel_append hds hes, ?_⟩
  rw [List.flatten_append]
  exact hts.append hus

theorem Declares.flatMap {A : Type*} {text : A → List UInt8} {ds : A → List Decl} {xs : List A}
    (h : ∀ x ∈ xs, Declares (text x) (ds x)) : Declares (xs.flatMap text) (xs.flatMap ds) := by
  induction xs with
  | nil => exact declares_nil lexes_nil
  | cons x xs ih =>
      exact (h x (by simp)).append (ih fun y hy => h y (List.mem_cons_of_mem _ hy))

section
variable {V : Type*} (evaluate : List (List UInt8 × V) → Decl → Option V)

/-- No name is declared again. -/
def declare (env : List (List UInt8 × V)) (d : Decl) : Option (List (List UInt8 × V)) :=
  if env.any fun e => e.1 == d.name then none
  else (evaluate env d).map fun v => env ++ [(d.name, v)]

def declareAll (env : List (List UInt8 × V)) (ds : List Decl) : Option (List (List UInt8 × V)) :=
  ds.foldlM (declare evaluate) env

theorem declareAll_append (env : List (List UInt8 × V)) (ds es : List Decl) :
    declareAll evaluate env (ds ++ es) =
      (declareAll evaluate env ds).bind fun env => declareAll evaluate env es :=
  List.foldlM_append

theorem declareAll_cons (env : List (List UInt8 × V)) (d : Decl) (ds : List Decl) :
    declareAll evaluate env (d :: ds) =
      (declare evaluate env d).bind fun env => declareAll evaluate env ds := rfl

variable {evaluate}

theorem any_name {env : List (List UInt8 × V)} {n : List UInt8} :
    (env.any fun e => e.1 == n) = true ↔ n ∈ env.map Prod.fst := by
  simp only [List.any_eq_true, beq_iff_eq, List.mem_map]

theorem declare_again {env : List (List UInt8 × V)} {d : Decl} (h : d.name ∈ env.map Prod.fst) :
    declare evaluate env d = none := if_pos (any_name.mpr h)

theorem declare_fresh {env : List (List UInt8 × V)} {d : Decl} {v : V}
    (hname : d.name ∉ env.map Prod.fst) (hv : evaluate env d = some v) :
    declare evaluate env d = some (env ++ [(d.name, v)]) := by
  rw [declare, if_neg fun h => hname (any_name.mp h), hv, Option.map_some]

theorem declare_failed {env : List (List UInt8 × V)} {d : Decl} (hv : evaluate env d = none) :
    declare evaluate env d = none := by
  rw [declare, hv, Option.map_none, ite_self]

theorem declare_nodup {env env' : List (List UInt8 × V)} {d : Decl}
    (h : declare evaluate env d = some env') (henv : (env.map Prod.fst).Nodup) :
    (env'.map Prod.fst).Nodup := by
  unfold declare at h
  split_ifs at h with hname
  obtain ⟨v, -, rfl⟩ := Option.map_eq_some_iff.mp h
  rw [List.map_append, List.nodup_append]
  refine ⟨henv, List.nodup_singleton _, ?_⟩
  intro a ha b hb heq
  have ha' : a = d.name := heq.trans (List.mem_singleton.mp hb)
  exact hname (any_name.mpr (ha' ▸ ha))

theorem declareAll_nodup {env env' : List (List UInt8 × V)} {ds : List Decl}
    (h : declareAll evaluate env ds = some env') (henv : (env.map Prod.fst).Nodup) :
    (env'.map Prod.fst).Nodup := by
  induction ds generalizing env with
  | nil =>
      cases h
      exact henv
  | cons d ds ih =>
      rw [declareAll_cons, Option.bind_eq_some_iff] at h
      obtain ⟨next, hnext, hrest⟩ := h
      exact ih hrest (declare_nodup hnext henv)

end

theorem lookup_of_mem {K V : Type*} [BEq K] [LawfulBEq K] {env : List (K × V)}
    (henv : (env.map Prod.fst).Nodup) {n : K} {v : V} (h : (n, v) ∈ env) :
    env.lookup n = some v := by
  induction env with
  | nil => cases h
  | cons e env ih =>
      rw [List.map_cons, List.nodup_cons] at henv
      rcases List.mem_cons.mp h with rfl | hmem
      · simp
      · have hne : (n == e.1) = false := by
          rw [beq_eq_false_iff_ne]
          intro heq
          exact henv.1 (heq ▸ List.mem_map_of_mem hmem)
        rw [List.lookup_cons, hne]
        exact ih henv.2 hmem

theorem mapM_if {A B : Type*} {f : A → Option B} {ok : A → Bool} {g : A → B} {xs : List A}
    (h : ∀ x ∈ xs, f x = if ok x then some (g x) else none) :
    xs.mapM f = if xs.all ok then some (xs.map g) else none := by
  induction xs with
  | nil => rfl
  | cons x xs ih =>
      rw [List.mapM_cons, h x (by simp), ih fun y hy => h y (List.mem_cons_of_mem _ hy),
        List.all_cons]
      cases hok : ok x with
      | false => rfl
      | true =>
          cases xs.all ok with
          | false => rfl
          | true => rfl

end BankFinder.CDeclarations
