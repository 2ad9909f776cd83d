import Mathlib

/-!
# Trees with named entries

A tree whose nodes list their children by name, places in it as lists of keys, and the
string which writes a place down with a separator in front of each key.
-/

namespace BankFinder.NamedTrees

section
variable {N L K : Type} [DecidableEq K]

inductive NamedTree (N L : Type) where
  | leaf (label : L)
  | node (entries : List (N × NamedTree N L))

/-- Of several entries with one key the first is meant. -/
def NamedTree.lookup (key : N → K) : NamedTree N L → List K → Option (NamedTree N L)
  | t, [] => some t
  | .leaf _, _ :: _ => none
  | .node entries, k :: ks =>
      match entries.find? fun e => key e.1 = k with
      | none => none
      | some e => lookup key e.2 ks

variable {key : N → K}

@[simp] theorem lookup_nil (t : NamedTree N L) : t.lookup key [] = some t := by
  cases t <;> rfl

theorem lookup_cons {t s : NamedTree N L} {k : K} {ks : List K} (h : t.lookup key (k :: ks) = some s) :
    ∃ entries, t = .node entries ∧ ∃ e ∈ entries, key e.1 = k ∧ e.2.lookup key ks = some s ∧
      t.lookup key [k] = some e.2 := by
  cases t with
  | leaf label => exact absurd h (by simp [NamedTree.lookup])
  | node entries =>
      cases hfind : entries.find? fun e => key e.1 = k with
      | none => exact absurd h (by simp [NamedTree.lookup, hfind])
      | some e =>
          have hkey := List.find?_some hfind
          refine ⟨entries, rfl, e, List.mem_of_find?_eq_some hfind, by simpa using hkey, ?_, ?_⟩
          · simpa only [NamedTree.lookup, hfind] using h
          · simp only [NamedTree.lookup, hfind]

theorem lookup_append (t : NamedTree N L) (ks ls : List K) :
    t.lookup key (ks ++ ls) = (t.lookup key ks).bind fun s => s.lookup key ls := by
  induction ks generalizing t with
  | nil => simp
  | cons k ks ih =>
      cases t with
      | leaf label => rfl
      | node entries =>
          rw [List.cons_append, NamedTree.lookup, NamedTree.lookup]
          cases entries.find? fun e => key e.1 = k with
          | none => rfl
          | some e => exact ih e.2

/-- A node whose names differ leads to each of its entries. -/
theorem lookup_entry {entries : List (N × NamedTree N L)}
    (hdistinct : (entries.map fun e => key e.1).Nodup) {e : N × NamedTree N L} (he : e ∈ entries) :
    (NamedTree.node entries).lookup key [key e.1] = some e.2 := by
  rw [NamedTree.lookup]
  cases hfind : entries.find? fun e' => key e'.1 = key e.1 with
  | none =>
      have hkey := List.find?_eq_none.mp hfind e he
      simp at hkey
  | some e' =>
      have hkey : key e'.1 = key e.1 := by simpa using List.find?_some hfind
      have hsame := List.inj_on_of_nodup_map hdistinct (List.mem_of_find?_eq_some hfind) he hkey
      simp only [hsame, lookup_nil]

/-- Every key of a place which exists belongs to a name. -/
theorem exists_name_of_lookup {t s : NamedTree N L} {ks : List K} (h : t.lookup key ks = some s) :
    ∀ k ∈ ks, ∃ n, key n = k := by
  induction ks generalizing t with
  | nil => simp
  | cons k ks ih =>
      obtain ⟨entries, -, e, -, hkey, hrest, -⟩ := lookup_cons h
      intro l hl
      rcases List.mem_cons.mp hl with rfl | hl
      · exact ⟨e.1, hkey⟩
      · exact ih hrest l hl

end

section
variable {A : Type} {sep : A}

def joinPath (sep : A) (ks : List (List A)) : List A := ks.flatMap fun k => sep :: k

theorem joinPath_cons (k : List A) (ks : List (List A)) :
    joinPath sep (k :: ks) = sep :: (k ++ joinPath sep ks) := by
  rw [joinPath, List.flatMap_cons, List.cons_append]
  rfl

theorem joinPath_concat (ks : List (List A)) (k : List A) :
    joinPath sep (ks ++ [k]) = joinPath sep ks ++ sep :: k := by
  rw [joinPath, List.flatMap_append, List.flatMap_singleton]
  rfl

variable [DecidableEq A]

def splitAt (sep : A) : List A → List (List A)
  | [] => [[]]
  | a :: rest =>
      if a = sep then [] :: splitAt sep rest
      else
        match splitAt sep rest with
        | [] => [[a]]
        | k :: ks => (a :: k) :: ks

theorem splitAt_join {k : List A} {ks : List (List A)} (hk : sep ∉ k) (hks : ∀ l ∈ ks, sep ∉ l) :
    splitAt sep (k ++ joinPath sep ks) = k :: ks := by
  induction ks generalizing k with
  | nil =>
      induction k with
      | nil => rfl
      | cons a k ih =>
          rw [List.mem_cons, not_or] at hk
          rw [List.cons_append, splitAt, if_neg (Ne.symm hk.1), ih hk.2]
  | cons l ks ihs =>
      have hrest := ihs (hks l List.mem_cons_self) fun l hl => hks l (List.mem_cons_of_mem _ hl)
      induction k with
      | nil => rw [List.nil_append, joinPath_cons, splitAt, if_pos rfl, hrest]
      | cons a k ih =>
          rw [List.mem_cons, not_or] at hk
          rw [List.cons_append, splitAt, if_neg (Ne.symm hk.1), ih hk.2]

/-- Keys without a separator can be read off the path. -/
theorem joinPath_inj {ks ls : List (List A)} (hks : ∀ k ∈ ks, sep ∉ k) (hls : ∀ l ∈ ls, sep ∉ l)
    (h : joinPath sep ks = joinPath sep ls) : ks = ls := by
  cases ks with
  | nil =>
      cases ls with
      | nil => rfl
      | cons l ls => exact absurd h.symm (List.cons_ne_nil _ _)
  | cons k ks =>
      cases ls with
      | nil => exact absurd h (List.cons_ne_nil _ _)
      | cons l ls =>
          rw [List.forall_mem_cons] at hks hls
          rw [joinPath_cons, joinPath_cons] at h
          have hsplit := congrArg (splitAt sep) (List.tail_eq_of_cons_eq h)
          rwa [splitAt_join hks.1 hks.2, splitAt_join hls.1 hls.2] at hsplit

end

end BankFinder.NamedTrees
