import BankFinder.BoardTable

/-!
# The board table as it is compiled

What the declarations of the generated file stand for. The file includes neither `stddef.h` nor
`string.h`, so `NULL` is declared only where it is compiled behind a file which does, as in the
shim. Without it every text must be given. The compiler drops the products for which a profile
has no room, but not from their number.
-/

namespace BankFinder.CompiledTable
open CTokens CDeclarations Nvram BoardTable

/-- `board_package_t` -/
structure TablePackage where
  designator : Text
  channel : UInt8
  rank : UInt8
  byteLane : UInt8
  chipWidth : UInt8
  locationHint : Text
  deriving DecidableEq, Repr

/-- `BOARD_MAX_PRODUCTS` -/
def boardMaxProducts : ℕ := 4

/-- `board_profile_t` -/
structure TableProfile where
  boardId : Text
  friendlyName : Text
  products : List Text
  numProducts : UInt8
  packageCount : UInt8
  chipWidth : UInt8
  channels : UInt8
  ranksPerChannel : UInt8
  packages : List TablePackage
  deriving DecidableEq, Repr

inductive Value where
  | packages (ps : List TablePackage)
  | profile (p : TableProfile)
  | profiles (ps : List TableProfile)
  | count (n : UInt32)

abbrev Env := List (List UInt8 × Value)

/-- Every member by its name, and none twice. -/
def membersOf (names : List String) : Init → Option (List Item)
  | .braces items =>
      if (items.map Prod.fst).Nodup ∧ ∀ n ∈ items.map Prod.fst, n ∈ names.map (some ∘ ascii) then
        some items
      else none
  | _ => none

def memberOf (items : List Item) (n : String) : Option Init := items.lookup (some (ascii n))

section
variable (nullDeclared : Bool)

/-- A pointer which is not initialized is NULL. -/
def textOf : Option Init → Option Text
  | none => some none
  | some (.text s) => some (some s)
  | some (.name n) => if n = ascii "NULL" ∧ nullDeclared = true then some none else none
  | _ => none

/-- The conversion to `uint8_t`. -/
def byteOf : Option Init → Option UInt8
  | none => some 0
  | some (.number v) => some (UInt8.ofInt v)
  | _ => none

def packageNames : List String :=
  ["designator", "channel", "rank", "byte_lane", "chip_width", "location_hint"]

def packageOf (i : Init) : Option TablePackage := do
  let items ← membersOf packageNames i
  let designator ← textOf nullDeclared (memberOf items "designator")
  let channel ← byteOf (memberOf items "channel")
  let rank ← byteOf (memberOf items "rank")
  let byteLane ← byteOf (memberOf items "byte_lane")
  let chipWidth ← byteOf (memberOf items "chip_width")
  let locationHint ← textOf nullDeclared (memberOf items "location_hint")
  some { designator, channel, rank, byteLane, chipWidth, locationHint }

/-- The elements of an array. -/
def elementsOf {A : Type} (f : Init → Option A) : Init → Option (List A)
  | .braces items => items.mapM fun item => if item.1 = none then f item.2 else none
  | _ => none

/-- The array of a profile: what is too much is dropped, what is missing is NULL. -/
def storedProducts (ts : List Text) : List Text :=
  ts.take boardMaxProducts ++ List.replicate (boardMaxProducts - ts.length) none

/-- `const char *products[BOARD_MAX_PRODUCTS]` -/
def productsOf : Option Init → Option (List Text)
  | none => some (storedProducts [])
  | some i => (elementsOf (textOf nullDeclared ∘ some) i).map storedProducts

/-- An array by its name. -/
def packagesAt (env : Env) : Option Init → Option (List TablePackage)
  | some (.name n) => match env.lookup n with
      | some (.packages ps) => some ps
      | _ => none
  | _ => none

def profileNames : List String :=
  ["board_id", "friendly_name", "products", "num_products", "package_count", "chip_width",
    "channels", "ranks_per_channel", "packages"]

def profileOf (env : Env) (i : Init) : Option TableProfile := do
  let items ← membersOf profileNames i
  let boardId ← textOf nullDeclared (memberOf items "board_id")
  let friendlyName ← textOf nullDeclared (memberOf items "friendly_name")
  let products ← productsOf nullDeclared (memberOf items "products")
  let numProducts ← byteOf (memberOf items "num_products")
  let packageCount ← byteOf (memberOf items "package_count")
  let chipWidth ← byteOf (memberOf items "chip_width")
  let channels ← byteOf (memberOf items "channels")
  let ranksPerChannel ← byteOf (memberOf items "ranks_per_channel")
  let packages ← packagesAt env (memberOf items "packages")
  some { boardId, friendlyName, products, numProducts, packageCount, chipWidth, channels,
         ranksPerChannel, packages }

def addressed (env : Env) : Init → Option TableProfile
  | .address n => match env.lookup n with
      | some (.profile p) => some p
      | _ => none
  | _ => none

/-- What a declaration of the types of the file stands for. -/
def evaluate (env : Env) (d : Decl) : Option Value :=
  if d.type = ascii "board_package_t" ∧ d.pointer = false ∧ d.array = true then
    (elementsOf (packageOf nullDeclared) d.init).map .packages
  else if d.type = ascii "board_profile_t" ∧ d.pointer = false ∧ d.array = false then
    (profileOf nullDeclared env d.init).map .profile
  else if d.type = ascii "board_profile_t" ∧ d.pointer = true ∧ d.array = true then
    (elementsOf (addressed env) d.init).map .profiles
  else if d.type = ascii "unsigned" ∧ d.pointer = false ∧ d.array = false then
    match d.init with
    | .number v => some (.count (UInt32.ofInt v))
    | _ => none
  else none

structure CTable where
  boardProfiles : List TableProfile
  boardProfileCount : UInt32
  deriving DecidableEq, Repr

/-- The two names which the lookups are linked against. -/
def linked (ds : List Decl) (env : Env) : Option CTable :=
  if (ds.any fun d => d.exported && d.name == ascii "board_profiles") ∧
      (ds.any fun d => d.exported && d.name == ascii "board_profile_count") then
    match env.lookup (ascii "board_profiles"), env.lookup (ascii "board_profile_count") with
    | some (.profiles ps), some (.count n) => some ⟨ps, n⟩
    | _, _ => none
  else none

/-- The table, where `NULL` is declared before the file or not. -/
def compile (text : List UInt8) : Option CTable :=
  (readFile text).bind fun ds => (declareAll (evaluate nullDeclared) [] ds).bind (linked ds)

end

def tablePackage (doc : BoardDoc) (p : PackageDoc) : TablePackage where
  designator := p.designator
  channel := UInt8.ofInt p.channel
  rank := UInt8.ofInt p.rank
  byteLane := UInt8.ofInt p.byteLane
  chipWidth := UInt8.ofInt (p.width doc)
  locationHint := p.locationHint

def tableProfile (doc : BoardDoc) : TableProfile where
  boardId := some doc.boardId
  friendlyName := doc.friendlyName
  products := storedProducts doc.products
  numProducts := UInt8.ofInt doc.products.length
  packageCount := UInt8.ofInt doc.packages.length
  chipWidth := UInt8.ofInt (doc.chipWidth.getD 8)
  channels := UInt8.ofInt (doc.channels.getD 2)
  ranksPerChannel := UInt8.ofInt (doc.ranksPerChannel.getD 1)
  packages := doc.packages.map (tablePackage doc)

/-- The text needs no name which is not declared. -/
def readable (nullDeclared : Bool) (t : Text) : Bool := nullDeclared || t.isSome

theorem textOf_textInit (nullDeclared : Bool) (t : Text) :
    textOf nullDeclared (some (textInit t)) = if readable nullDeclared t then some t else none := by
  cases t with
  | none => simp [textInit, textOf, readable]
  | some s => simp [textInit, textOf, readable]

section
variable {ms : List Member} {names : List String}

theorem item_names (ms : List Member) :
    (ms.map Member.item).map Prod.fst = (ms.map Member.name).map (some ∘ ascii) := by
  simp [Member.item, Function.comp_def]

theorem membersOf_items (hnames : ms.map Member.name = names)
    (hnodup : (names.map (some ∘ ascii)).Nodup) :
    membersOf names (.braces (ms.map Member.item)) = some (ms.map Member.item) := by
  rw [membersOf, item_names, hnames]
  exact if_pos ⟨hnodup, fun _ h => h⟩

theorem memberOf_items (hnames : ms.map Member.name = names)
    (hnodup : (names.map (some ∘ ascii)).Nodup) {m : Member} (hm : m ∈ ms) :
    memberOf (ms.map Member.item) m.name = some m.init := by
  apply lookup_of_mem
  · rw [item_names, hnames]
    exact hnodup
  · exact List.mem_map_of_mem hm

end

theorem packageNames_nodup : (packageNames.map (some ∘ ascii)).Nodup := by decide +kernel

theorem profileNames_nodup : (profileNames.map (some ∘ ascii)).Nodup := by decide +kernel

/-- What a package needs. -/
def packageReadable (nullDeclared : Bool) (p : PackageDoc) : Bool :=
  readable nullDeclared p.designator && readable nullDeclared p.locationHint

theorem packageOf_init (nullDeclared : Bool) (doc : BoardDoc) (p : PackageDoc) :
    packageOf nullDeclared (p.init doc) =
      if packageReadable nullDeclared p then some (tablePackage doc p) else none := by
  have hnames : (p.members doc).map Member.name = packageNames := rfl
  have hget {m : Member} (hm : m ∈ p.members doc) :=
    memberOf_items hnames packageNames_nodup hm
  have hdesignator := hget (m := textMember "designator" p.designator)
    (by simp [PackageDoc.members])
  have hchannel := hget (m := intMember "channel" p.channel) (by simp [PackageDoc.members])
  have hrank := hget (m := intMember "rank" p.rank) (by simp [PackageDoc.members])
  have hlane := hget (m := intMember "byte_lane" p.byteLane) (by simp [PackageDoc.members])
  have hwidth := hget (m := intMember "chip_width" (p.width doc)) (by simp [PackageDoc.members])
  have hhint := hget (m := textMember "location_hint" p.locationHint)
    (by simp [PackageDoc.members])
  simp only [textMember, intMember] at hdesignator hchannel hrank hlane hwidth hhint
  rw [packageOf, PackageDoc.init, membersOf_items hnames packageNames_nodup]
  simp only [Option.bind_eq_bind, Option.bind_some, hdesignator, hchannel, hrank, hlane, hwidth,
    hhint, textOf_textInit, byteOf, packageReadable]
  by_cases hfirst : readable nullDeclared p.designator = true
  · by_cases hlast : readable nullDeclared p.locationHint = true
    · simp [hfirst, hlast, tablePackage]
    · simp [hlast]
  · simp [hfirst]

theorem elementsOf_if {A B : Type} {f : Init → Option A} {xs : List B} {init : B → Init}
    {ok : B → Bool} {g : B → A} (h : ∀ x ∈ xs, f (init x) = if ok x then some (g x) else none) :
    elementsOf f (.braces (xs.map fun x => (none, init x))) =
      if xs.all ok then some (xs.map g) else none := by
  rw [elementsOf, List.mapM_map]
  apply mapM_if
  intro x hx
  change (if (none : Option (List UInt8)) = none then f (init x) else none) = _
  rw [if_pos rfl, h x hx]

theorem elementsOf_plain {A B : Type} {f : Init → Option A} {xs : List B} {init : B → Init}
    {g : B → A} (h : ∀ x ∈ xs, f (init x) = some (g x)) :
    elementsOf f (.braces (xs.map fun x => (none, init x))) = some (xs.map g) := by
  have hall : ∀ x ∈ xs, f (init x) = if (fun _ => true) x then some (g x) else none := h
  rw [elementsOf_if hall]
  simp

theorem packages_of_init (nullDeclared : Bool) (doc : BoardDoc) :
    elementsOf (packageOf nullDeclared) doc.packagesDecl.init =
      if doc.packages.all (packageReadable nullDeclared) then
        some (doc.packages.map (tablePackage doc)) else none :=
  elementsOf_if fun p _ => packageOf_init nullDeclared doc p

theorem productsOf_init (nullDeclared : Bool) (products : List Text) :
    productsOf nullDeclared (some (productsMember products).init) =
      if (shownProducts products).all (readable nullDeclared) then some (storedProducts products)
      else none := by
  have hshown : elementsOf (textOf nullDeclared ∘ some) (productsMember products).init =
      if (shownProducts products).all (readable nullDeclared) then
        some ((shownProducts products).map id) else none :=
    elementsOf_if fun t _ => textOf_textInit nullDeclared t
  have hstored : storedProducts (shownProducts products) = storedProducts products := by
    unfold shownProducts
    split_ifs with hempty
    · subst hempty
      rfl
    · rfl
  rw [productsOf, hshown, List.map_id]
  split_ifs
  · rw [Option.map_some, hstored]
  · rfl

/-- What the profile itself needs. -/
def profileReadable (nullDeclared : Bool) (doc : BoardDoc) : Bool :=
  readable nullDeclared doc.friendlyName &&
    (shownProducts doc.products).all (readable nullDeclared)

theorem profileOf_init (nullDeclared : Bool) {doc : BoardDoc} {env : Env}
    (henv : env.lookup (doc.slug ++ ascii "_packages") =
      some (.packages (doc.packages.map (tablePackage doc)))) :
    profileOf nullDeclared env doc.profileDecl.init =
      if profileReadable nullDeclared doc then some (tableProfile doc) else none := by
  have hnames : doc.members.map Member.name = profileNames := rfl
  have hget {m : Member} (hm : m ∈ doc.members) := memberOf_items hnames profileNames_nodup hm
  have hid := hget (m := textMember "board_id" (some doc.boardId)) (by simp [BoardDoc.members])
  have hfriendly := hget (m := textMember "friendly_name" doc.friendlyName)
    (by simp [BoardDoc.members])
  have hproducts := hget (m := productsMember doc.products) (by simp [BoardDoc.members])
  have hcount := hget (m := intMember "num_products" doc.products.length)
    (by simp [BoardDoc.members])
  have hpackages := hget (m := intMember "package_count" doc.packages.length)
    (by simp [BoardDoc.members])
  have hwidth := hget (m := intMember "chip_width" (doc.chipWidth.getD 8))
    (by simp [BoardDoc.members])
  have hchannels := hget (m := intMember "channels" (doc.channels.getD 2))
    (by simp [BoardDoc.members])
  have hranks := hget (m := intMember "ranks_per_channel" (doc.ranksPerChannel.getD 1))
    (by simp [BoardDoc.members])
  have htable := hget (m := ⟨"packages", [.ident (doc.slug ++ ascii "_packages")],
    .name (doc.slug ++ ascii "_packages")⟩) (by simp [BoardDoc.members])
  have hlist : memberOf (doc.members.map Member.item) "products" =
      some (productsMember doc.products).init := hproducts
  simp only [textMember, intMember] at hid hfriendly hcount hpackages hwidth hchannels hranks htable
  rw [profileOf, BoardDoc.profileDecl, membersOf_items hnames profileNames_nodup]
  simp only [Option.bind_eq_bind, Option.bind_some, hid, hfriendly, hlist, hcount, hpackages,
    hwidth, hchannels, hranks, htable, textOf_textInit, byteOf, packagesAt, henv, productsOf_init,
    profileReadable]
  have hboard : readable nullDeclared (some doc.boardId) = true := Bool.or_true _
  rw [hboard]
  by_cases hname : readable nullDeclared doc.friendlyName = true
  · by_cases hlist : (shownProducts doc.products).all (readable nullDeclared) = true
    · simp [hname, hlist, tableProfile]
    · simp [hlist]
  · simp [hname]

/-- The last three bytes tell the kinds of names apart. -/
def ending (s : List UInt8) : List UInt8 := s.reverse.take 3

theorem ending_append (s : List UInt8) {t : List UInt8} (h : 3 ≤ t.length) :
    ending (s ++ t) = ending t := by
  rw [ending, ending, List.reverse_append, List.take_append_of_le_length (by simpa using h)]

theorem ending_packages (s : List UInt8) : ending (s ++ ascii "_packages") = ascii "seg" :=
  (ending_append s (by decide)).trans (by decide +kernel)

theorem ending_profile (s : List UInt8) : ending (s ++ ascii "_profile") = ascii "eli" :=
  (ending_append s (by decide)).trans (by decide +kernel)

/-- What the declarations of the boards stand for. -/
def entriesOf (docs : List BoardDoc) : Env :=
  docs.flatMap fun doc =>
    [(doc.slug ++ ascii "_packages", .packages (doc.packages.map (tablePackage doc))),
      (doc.slug ++ ascii "_profile", .profile (tableProfile doc))]

theorem entriesOf_append (docs docs' : List BoardDoc) :
    entriesOf (docs ++ docs') = entriesOf docs ++ entriesOf docs' := List.flatMap_append

theorem mem_entriesOf {docs : List BoardDoc} {n : List UInt8} :
    n ∈ (entriesOf docs).map Prod.fst ↔
      ∃ doc ∈ docs, n = doc.slug ++ ascii "_packages" ∨ n = doc.slug ++ ascii "_profile" := by
  simp only [entriesOf, List.map_flatMap, List.mem_flatMap, List.map_cons, List.map_nil,
    List.mem_cons, List.not_mem_nil, or_false]

theorem packages_mem {docs : List BoardDoc} {s : List UInt8} :
    s ++ ascii "_packages" ∈ (entriesOf docs).map Prod.fst ↔ s ∈ docs.map BoardDoc.slug := by
  rw [mem_entriesOf, List.mem_map]
  constructor
  · intro h
    obtain ⟨doc, hdoc, heq | heq⟩ := h
    · exact ⟨doc, hdoc, (List.append_cancel_right heq).symm⟩
    · have hend := congrArg ending heq
      rw [ending_packages, ending_profile] at hend
      exact absurd hend (by decide)
  · intro h
    obtain ⟨doc, hdoc, rfl⟩ := h
    exact ⟨doc, hdoc, Or.inl rfl⟩

theorem profile_mem {docs : List BoardDoc} {s : List UInt8} :
    s ++ ascii "_profile" ∈ (entriesOf docs).map Prod.fst ↔ s ∈ docs.map BoardDoc.slug := by
  rw [mem_entriesOf, List.mem_map]
  constructor
  · intro h
    obtain ⟨doc, hdoc, heq | heq⟩ := h
    · have hend := congrArg ending heq
      rw [ending_packages, ending_profile] at hend
      exact absurd hend (by decide)
    · exact ⟨doc, hdoc, (List.append_cancel_right heq).symm⟩
  · intro h
    obtain ⟨doc, hdoc, rfl⟩ := h
    exact ⟨doc, hdoc, Or.inr rfl⟩

/-- No board has one of the names which are linked. -/
theorem other_name {docs : List BoardDoc} {n : List UInt8} (hseg : ending n ≠ ascii "seg")
    (heli : ending n ≠ ascii "eli") : n ∉ (entriesOf docs).map Prod.fst := by
  intro h
  obtain ⟨doc, -, rfl | rfl⟩ := mem_entriesOf.mp h
  · exact hseg (ending_packages _)
  · exact heli (ending_profile _)

theorem lookup_append_of_notMem {env env' : Env} {n : List UInt8} (h : n ∉ env.map Prod.fst) :
    (env ++ env').lookup n = env'.lookup n := by
  rw [List.lookup_append, List.lookup_eq_none_iff.mpr, Option.none_or]
  intro e he
  rw [bne_iff_ne]
  intro heq
  exact h (heq ▸ List.mem_map_of_mem he)

/-- What a board needs. -/
def boardReadable (nullDeclared : Bool) (doc : BoardDoc) : Bool :=
  doc.packages.all (packageReadable nullDeclared) && profileReadable nullDeclared doc

section
variable (nullDeclared : Bool)

theorem evaluate_packagesDecl (env : Env) (doc : BoardDoc) :
    evaluate nullDeclared env doc.packagesDecl =
      if doc.packages.all (packageReadable nullDeclared) then
        some (.packages (doc.packages.map (tablePackage doc))) else none := by
  rw [evaluate, if_pos ⟨rfl, rfl, rfl⟩, packages_of_init]
  split_ifs
  · rfl
  · rfl

theorem evaluate_profileDecl {env : Env} {doc : BoardDoc}
    (henv : env.lookup (doc.slug ++ ascii "_packages") =
      some (.packages (doc.packages.map (tablePackage doc)))) :
    evaluate nullDeclared env doc.profileDecl =
      if profileReadable nullDeclared doc then some (.profile (tableProfile doc)) else none := by
  have htype : ascii "board_profile_t" ≠ ascii "board_package_t" := by decide +kernel
  rw [evaluate, if_neg fun h => htype h.1, if_pos ⟨rfl, rfl, rfl⟩,
    profileOf_init nullDeclared henv]
  split_ifs
  · rfl
  · rfl

/-- One board is declared behind others. -/
theorem declare_board (docs : List BoardDoc) (doc : BoardDoc) :
    declareAll (evaluate nullDeclared) (entriesOf docs) [doc.packagesDecl, doc.profileDecl] =
      if doc.slug ∉ docs.map BoardDoc.slug ∧ boardReadable nullDeclared doc = true then
        some (entriesOf (docs ++ [doc]))
      else none := by
  rw [declareAll_cons]
  by_cases hslug : doc.slug ∈ docs.map BoardDoc.slug
  · have hagain : doc.packagesDecl.name ∈ (entriesOf docs).map Prod.fst := packages_mem.mpr hslug
    rw [declare_again hagain, if_neg fun h => h.1 hslug]
    rfl
  have hpackages : doc.packagesDecl.name ∉ (entriesOf docs).map Prod.fst :=
    fun h => hslug (packages_mem.mp h)
  have hfirst := evaluate_packagesDecl nullDeclared (entriesOf docs) doc
  by_cases hread : doc.packages.all (packageReadable nullDeclared) = true
  swap
  · rw [if_neg hread] at hfirst
    rw [declare_failed hfirst, if_neg fun h => hread (Bool.and_eq_true_iff.mp h.2).1]
    rfl
  rw [if_pos hread] at hfirst
  rw [declare_fresh hpackages hfirst, Option.bind_some, declareAll_cons]
  have hprofile : doc.profileDecl.name ∉
      (entriesOf docs ++ [(doc.packagesDecl.name,
        Value.packages (doc.packages.map (tablePackage doc)))]).map Prod.fst := by
    rw [List.map_append, List.mem_append]
    intro h
    rcases h with h | h
    · exact hslug (profile_mem.mp h)
    · have hend := congrArg ending (List.mem_singleton.mp h)
      have hprof : ending doc.profileDecl.name = ascii "eli" := ending_profile _
      have hpack : ending doc.packagesDecl.name = ascii "seg" := ending_packages _
      rw [hprof] at hend
      exact absurd (hend.trans hpack) (by decide)
  have hlookup : (entriesOf docs ++ [(doc.packagesDecl.name,
      Value.packages (doc.packages.map (tablePackage doc)))]).lookup
        (doc.slug ++ ascii "_packages") =
          some (.packages (doc.packages.map (tablePackage doc))) :=
    (lookup_append_of_notMem hpackages).trans List.lookup_cons_self
  have hvalue := evaluate_profileDecl nullDeclared hlookup
  by_cases hself : profileReadable nullDeclared doc = true
  · rw [if_pos hself] at hvalue
    rw [declare_fresh hprofile hvalue, if_pos ⟨hslug, by rw [boardReadable, hread, hself]; rfl⟩,
      entriesOf_append]
    simp [declareAll, entriesOf, BoardDoc.packagesDecl, BoardDoc.profileDecl]
  · rw [if_neg hself] at hvalue
    rw [declare_failed hvalue, if_neg fun h => hself (Bool.and_eq_true_iff.mp h.2).2]
    rfl

/-- All texts of the board are given. -/
def Complete (doc : BoardDoc) : Prop :=
  doc.friendlyName ≠ none ∧ (doc.products ≠ [] ∧ none ∉ doc.products) ∧
    ∀ p ∈ doc.packages, p.designator ≠ none ∧ p.locationHint ≠ none

instance (doc : BoardDoc) : Decidable (Complete doc) := inferInstanceAs (Decidable (_ ∧ _ ∧ _))

theorem shownProducts_given (products : List Text) :
    (shownProducts products).all (readable false) = true ↔ products ≠ [] ∧ none ∉ products := by
  unfold shownProducts
  split_ifs with hempty
  · simp [hempty, readable]
  · simp only [List.all_eq_true, readable, Bool.false_or, Option.isSome_iff_ne_none, hempty, ne_eq,
      not_false_eq_true, true_and]
    constructor
    · exact fun h hmem => h none hmem rfl
    · exact fun h t ht hnone => h (hnone ▸ ht)

theorem boardReadable_iff (doc : BoardDoc) :
    boardReadable nullDeclared doc = true ↔ nullDeclared = true ∨ Complete doc := by
  cases nullDeclared with
  | true => simp [boardReadable, profileReadable, packageReadable, readable]
  | false =>
      rw [boardReadable, profileReadable, Bool.and_eq_true, Bool.and_eq_true, shownProducts_given]
      simp only [Complete, List.all_eq_true, packageReadable, readable, Bool.false_or,
        Bool.and_eq_true, Option.isSome_iff_ne_none, ne_eq, Bool.false_eq_true, false_or]
      exact ⟨fun h => ⟨h.2.1, h.2.2, h.1⟩, fun h => ⟨h.2.2, h.1, h.2.1⟩⟩

/-- Every board has its own name in C, and `NULL` is declared or not needed. -/
def Compiles (docs : List BoardDoc) : Prop :=
  (docs.map BoardDoc.slug).Nodup ∧ (nullDeclared = true ∨ ∀ doc ∈ docs, Complete doc)

instance (docs : List BoardDoc) : Decidable (Compiles nullDeclared docs) :=
  inferInstanceAs (Decidable (_ ∧ (_ ∨ _)))

theorem compiles_concat (docs : List BoardDoc) (doc : BoardDoc) :
    Compiles nullDeclared (docs ++ [doc]) ↔ Compiles nullDeclared docs ∧
      doc.slug ∉ docs.map BoardDoc.slug ∧ boardReadable nullDeclared doc = true := by
  rw [boardReadable_iff]
  unfold Compiles
  rw [List.map_append, List.nodup_append, List.forall_mem_append]
  simp only [List.map_cons, List.map_nil, List.nodup_singleton, List.mem_singleton,
    forall_eq, true_and]
  constructor
  · intro h
    obtain ⟨⟨hdocs, hnew⟩, hread⟩ := h
    refine ⟨⟨hdocs, hread.imp_right And.left⟩, fun hmem => hnew _ hmem rfl,
      hread.imp_right And.right⟩
  · intro h
    obtain ⟨⟨hdocs, hread⟩, hnew, hlast⟩ := h
    refine ⟨⟨hdocs, fun a ha heq => hnew (heq ▸ ha)⟩, ?_⟩
    rcases hread with hnull | hall
    · exact Or.inl hnull
    · exact hlast.imp_right fun hdoc => ⟨hall, hdoc⟩

theorem declare_boards (docs : List BoardDoc) :
    declareAll (evaluate nullDeclared) []
        (docs.flatMap fun doc => [doc.packagesDecl, doc.profileDecl]) =
      if Compiles nullDeclared docs then some (entriesOf docs) else none := by
  induction docs using List.reverseRecOn with
  | nil =>
      rw [if_pos ⟨List.nodup_nil, Or.inr fun doc hdoc => absurd hdoc List.not_mem_nil⟩]
      rfl
  | append_singleton docs doc ih =>
      rw [List.flatMap_append, declareAll_append, ih]
      by_cases hdocs : Compiles nullDeclared docs
      · rw [if_pos hdocs, Option.bind_some, List.flatMap_singleton, declare_board]
        simp only [compiles_concat, hdocs, true_and]
      · rw [if_neg hdocs, if_neg fun h => hdocs ((compiles_concat nullDeclared docs doc).mp h).1]
        rfl

end

theorem addressed_slug {nullDeclared : Bool} {docs : List BoardDoc}
    (h : Compiles nullDeclared docs) {doc : BoardDoc}
    (hdoc : doc ∈ docs) :
    addressed (entriesOf docs) (.address (doc.slug ++ ascii "_profile")) =
      some (tableProfile doc) := by
  have hentries := declare_boards nullDeclared docs
  rw [if_pos h] at hentries
  have hnodup := declareAll_nodup hentries List.nodup_nil
  have hmem : (doc.slug ++ ascii "_profile", Value.profile (tableProfile doc)) ∈ entriesOf docs :=
    List.mem_flatMap.mpr ⟨doc, hdoc, by simp⟩
  rw [addressed, lookup_of_mem hnodup hmem]

theorem evaluate_tableDecl {nullDeclared : Bool} {docs : List BoardDoc}
    (h : Compiles nullDeclared docs) :
    evaluate nullDeclared (entriesOf docs) (tableDecl (docs.map BoardDoc.slug)) =
      some (.profiles (docs.map tableProfile)) := by
  have htype : ascii "board_profile_t" ≠ ascii "board_package_t" := by decide +kernel
  have helements : elementsOf (addressed (entriesOf docs))
      (tableDecl (docs.map BoardDoc.slug)).init = some (docs.map tableProfile) := by
    rw [tableDecl, List.map_map]
    change elementsOf _ (.braces (docs.map fun doc =>
      (none, .address (doc.slug ++ ascii "_profile")))) = _
    exact elementsOf_plain fun doc hdoc => addressed_slug h hdoc
  rw [evaluate, if_neg fun h => htype h.1, if_neg fun h => Bool.false_ne_true h.2.1.symm,
    if_pos ⟨rfl, rfl, rfl⟩, helements]
  rfl

theorem evaluate_countDecl (nullDeclared : Bool) (env : Env) (n : ℕ) :
    evaluate nullDeclared env (countDecl n) = some (.count (UInt32.ofInt n)) := by
  have hpackage : ascii "unsigned" ≠ ascii "board_package_t" := by decide +kernel
  have hprofile : ascii "unsigned" ≠ ascii "board_profile_t" := by decide +kernel
  rw [evaluate, if_neg fun h => hpackage h.1, if_neg fun h => hprofile h.1,
    if_neg fun h => hprofile h.1, if_pos ⟨rfl, rfl, rfl⟩]
  rfl

theorem declare_linked {nullDeclared : Bool} {docs : List BoardDoc}
    (h : Compiles nullDeclared docs) :
    declareAll (evaluate nullDeclared) (entriesOf docs)
      [tableDecl (docs.map BoardDoc.slug), countDecl docs.length] =
        some (entriesOf docs ++ [(ascii "board_profiles", .profiles (docs.map tableProfile)),
          (ascii "board_profile_count", .count (UInt32.ofInt docs.length))]) := by
  have htable : (tableDecl (docs.map BoardDoc.slug)).name ∉ (entriesOf docs).map Prod.fst :=
    other_name (n := ascii "board_profiles") (by decide +kernel) (by decide +kernel)
  have hcount : ascii "board_profile_count" ∉ (entriesOf docs).map Prod.fst :=
    other_name (by decide +kernel) (by decide +kernel)
  have hdiffer : ascii "board_profile_count" ≠ ascii "board_profiles" := by decide +kernel
  have hnext : (countDecl docs.length).name ∉ (entriesOf docs ++
      [((tableDecl (docs.map BoardDoc.slug)).name,
        Value.profiles (docs.map tableProfile))]).map Prod.fst := by
    rw [List.map_append, List.mem_append]
    intro h
    rcases h with h | h
    · exact hcount h
    · exact hdiffer (List.mem_singleton.mp h)
  rw [declareAll_cons, declare_fresh htable (evaluate_tableDecl h), Option.bind_some,
    declareAll_cons, declare_fresh hnext (evaluate_countDecl _ _ _), Option.bind_some]
  simp [declareAll, tableDecl, countDecl]

theorem compile_generate (nullDeclared : Bool) {files : List (List UInt8 × Option BoardDoc)}
    (hnames : ∀ f ∈ boards files, OneLine f.1) (hplain : ∀ f ∈ boards files, f.2.Plain)
    (hcount : (boards files).length < 2 ^ 63) :
    let docs := (boards files).map Prod.snd
    compile nullDeclared (generate files) =
      if Compiles nullDeclared docs then some ⟨docs.map tableProfile, UInt32.ofNat docs.length⟩
      else none := by
  intro docs
  rw [compile, generate_declared hnames hplain hcount, Option.bind_some, declarations,
    declareAll_append, declare_boards]
  split_ifs with hcompiles
  · have htable : ascii "board_profiles" ∉ (entriesOf docs).map Prod.fst :=
      other_name (by decide +kernel) (by decide +kernel)
    have hnumber : ascii "board_profile_count" ∉ (entriesOf docs).map Prod.fst :=
      other_name (by decide +kernel) (by decide +kernel)
    have hdiffer : (ascii "board_profile_count" == ascii "board_profiles") = false := by
      decide +kernel
    rw [Option.bind_some, declare_linked hcompiles, Option.bind_some, linked,
      lookup_append_of_notMem htable, lookup_append_of_notMem hnumber]
    have hofInt : UInt32.ofInt (docs.length : ℤ) = UInt32.ofNat docs.length := by
      rw [← UInt32.toNat_inj, UInt32.ofInt, UInt32.toNat_ofNat', UInt32.toNat_ofNat']
      omega
    rw [if_pos (by simp [tableDecl, countDecl]), List.lookup_cons_self, List.lookup_cons, hdiffer,
      hofInt]
    rfl
  · rfl

/-- The generated file is valid C exactly if the boards have different names there and `NULL` is
declared or not needed, and then it holds the table of the board files. -/
theorem generated_table_compiles (nullDeclared : Bool)
    {files : List (List UInt8 × Option BoardDoc)}
    (hnames : ∀ f ∈ boards files, OneLine f.1) (hplain : ∀ f ∈ boards files, f.2.Plain)
    (hcount : (boards files).length < 2 ^ 63) (t : CTable) :
    let docs := (boards files).map Prod.snd
    compile nullDeclared (generate files) = some t ↔
      Compiles nullDeclared docs ∧ t = ⟨docs.map tableProfile, UInt32.ofNat docs.length⟩ := by
  intro docs
  rw [compile_generate nullDeclared hnames hplain hcount]
  by_cases hcompiles : Compiles nullDeclared docs
  · rw [if_pos hcompiles, Option.some_inj]
    exact ⟨fun h => ⟨hcompiles, h.symm⟩, fun h => h.2.symm⟩
  · rw [if_neg hcompiles]
    constructor
    · intro h
      cases h
    · intro h
      exact absurd h.1 hcompiles

/-- What the lookups see of a profile. -/
def overlay (p : TableProfile) : BoardTopology.BoardProfile where
  products := (p.products.take p.numProducts.toNat).reduceOption
  packages := (p.packages.take p.packageCount.toNat).map fun k =>
    ⟨k.designator.getD [], k.channel, k.rank, k.byteLane, k.chipWidth⟩

/-- The bounds of the schema, as far as the lookups need them. -/
structure InSchema (doc : BoardDoc) : Prop where
  products : doc.products.length ≤ boardMaxProducts
  packages : doc.packages.length < 256
  channel : ∀ p ∈ doc.packages, 0 ≤ p.channel ∧ p.channel < 256
  rank : ∀ p ∈ doc.packages, 0 ≤ p.rank ∧ p.rank < 256
  byteLane : ∀ p ∈ doc.packages, 0 ≤ p.byteLane ∧ p.byteLane < 255
  width : ∀ p ∈ doc.packages, 0 ≤ p.width doc ∧ p.width doc < 256

/-- The file says that the package serves the position. -/
def ServesAt (doc : BoardDoc) (p : PackageDoc) (channel rank lane : ℕ) : Prop :=
  p.channel = channel ∧ p.rank = rank ∧ p.byteLane ≤ lane ∧
    (lane : ℤ) ≤ p.byteLane + if p.width doc = 16 then 1 else 0

instance (doc : BoardDoc) (p : PackageDoc) (channel rank lane : ℕ) :
    Decidable (ServesAt doc p channel rank lane) := inferInstanceAs (Decidable (_ ∧ _))

def boardPackage (doc : BoardDoc) (p : PackageDoc) : BoardTopology.BoardPackage :=
  ⟨p.designator.getD [], UInt8.ofInt p.channel, UInt8.ofInt p.rank, UInt8.ofInt p.byteLane,
    UInt8.ofInt (p.width doc)⟩

theorem toNat_ofInt {v : ℤ} (hv : 0 ≤ v ∧ v < 256) : ((UInt8.ofInt v).toNat : ℤ) = v := by
  rw [UInt8.ofInt, UInt8.toNat_ofNat']
  omega

theorem length_toNat {n : ℕ} (hn : n < 256) : (UInt8.ofInt (n : ℤ)).toNat = n := by
  have hvalue := toNat_ofInt (v := n) (by omega)
  exact_mod_cast hvalue

theorem overlay_products {doc : BoardDoc} (h : doc.products.length ≤ boardMaxProducts) :
    (overlay (tableProfile doc)).products = doc.products.reduceOption := by
  have hlength : doc.products.length < 256 := lt_of_le_of_lt h (by decide)
  have hall : doc.products.take boardMaxProducts = doc.products := List.take_of_length_le h
  simp [overlay, tableProfile, storedProducts, hall, length_toNat hlength]

theorem overlay_packages {doc : BoardDoc} (h : doc.packages.length < 256) :
    (overlay (tableProfile doc)).packages = doc.packages.map (boardPackage doc) := by
  have hall : (doc.packages.map (tablePackage doc)).take (UInt8.ofInt doc.packages.length).toNat =
      doc.packages.map (tablePackage doc) := by
    rw [length_toNat h, List.take_of_length_le (by simp)]
  rw [overlay, tableProfile, hall, List.map_map]
  rfl

theorem serves_iff {doc : BoardDoc} (h : InSchema doc) {p : PackageDoc} (hp : p ∈ doc.packages)
    (channel rank lane : UInt8) :
    (boardPackage doc p).serves channel rank lane = true ↔
      ServesAt doc p channel.toNat rank.toNat lane.toNat := by
  have hchannel := toNat_ofInt (h.channel p hp)
  have hrank := toNat_ofInt (h.rank p hp)
  have hlane := toNat_ofInt ⟨(h.byteLane p hp).1, by linarith [(h.byteLane p hp).2]⟩
  have hwidth := toNat_ofInt (h.width p hp)
  have hbound := (h.byteLane p hp).2
  have hsixteen : UInt8.ofInt (p.width doc) = 16 ↔ p.width doc = 16 := by
    rw [← UInt8.toNat_inj, show (16 : UInt8).toNat = 16 from rfl]
    omega
  simp only [BoardTopology.BoardPackage.serves, boardPackage, ServesAt, Bool.and_eq_true,
    beq_iff_eq, decide_eq_true_eq, ← UInt8.toNat_inj, UInt8.le_iff_toNat_le, hsixteen]
  split_ifs with hw
  · have hnext : (UInt8.ofInt p.byteLane + 1).toNat = (UInt8.ofInt p.byteLane).toNat + 1 := by
      rw [UInt8.toNat_add, show (1 : UInt8).toNat = 1 from rfl]
      omega
    rw [hnext]
    omega
  · rw [UInt8.add_zero]
    omega

theorem find?_congr {A : Type} {f g : A → Bool} {xs : List A} (h : ∀ x ∈ xs, f x = g x) :
    xs.find? f = xs.find? g := by
  induction xs with
  | nil => rfl
  | cons x xs ih =>
      rw [List.find?_cons, List.find?_cons, h x (by simp), ih fun y hy =>
        h y (List.mem_cons_of_mem _ hy)]

theorem boardLookup_overlay {doc : BoardDoc} (h : InSchema doc) (channel rank lane : UInt8) :
    BoardTopology.boardLookup (overlay (tableProfile doc)) channel rank lane =
      (doc.packages.find? fun p => ServesAt doc p channel.toNat rank.toNat lane.toNat).map
        (boardPackage doc) := by
  rw [BoardTopology.boardLookup, overlay_packages h.packages, List.find?_map]
  congr 1
  apply find?_congr
  intro p hp
  rw [Bool.eq_iff_iff, decide_eq_true_iff]
  exact serves_iff h hp channel rank lane

theorem boardDetect_overlay {docs : List BoardDoc}
    (h : ∀ doc ∈ docs, doc.products.length ≤ boardMaxProducts) (product : List UInt8) :
    BoardTopology.boardDetect (docs.map fun doc => overlay (tableProfile doc)) (some product) =
      (docs.find? fun doc => some product ∈ doc.products).map fun doc =>
        overlay (tableProfile doc) := by
  rw [BoardTopology.boardDetect, Option.bind_some, List.find?_map]
  congr 1
  apply find?_congr
  intro doc hdoc
  rw [Bool.eq_iff_iff, decide_eq_true_iff, Function.comp_apply, BoardTopology.productMatches,
    overlay_products (h doc hdoc), List.any_eq_true]
  simp only [asciiEq_iff, exists_eq_right', List.reduceOption_mem_iff]

/-- The lookups in the compiled table find what the files say: the first board with the product,
and its first package at the position. -/
theorem chip_found_as_written (nullDeclared : Bool)
    {files : List (List UInt8 × Option BoardDoc)}
    (hnames : ∀ f ∈ boards files, OneLine f.1) (hplain : ∀ f ∈ boards files, f.2.Plain)
    (hcount : (boards files).length < 2 ^ 63) (hschema : ∀ f ∈ boards files, InSchema f.2)
    {t : CTable} (ht : compile nullDeclared (generate files) = some t) (product : List UInt8)
    (channel rank lane : UInt8) :
    (BoardTopology.boardDetect (t.boardProfiles.map overlay) (some product)).bind
        (BoardTopology.boardLookup · channel rank lane) =
      (((boards files).map Prod.snd).find? fun doc => some product ∈ doc.products).bind fun doc =>
        (doc.packages.find? fun p => ServesAt doc p channel.toNat rank.toNat lane.toNat).map
          (boardPackage doc) := by
  rw [compile_generate nullDeclared hnames hplain hcount] at ht
  split_ifs at ht
  cases ht
  rw [List.map_map]
  change (BoardTopology.boardDetect (((boards files).map Prod.snd).map fun doc =>
    overlay (tableProfile doc)) (some product)).bind _ = _
  have hproducts : ∀ doc ∈ (boards files).map Prod.snd, doc.products.length ≤ boardMaxProducts := by
    intro doc hdoc
    obtain ⟨f, hf, rfl⟩ := List.mem_map.mp hdoc
    exact (hschema f hf).products
  rw [boardDetect_overlay hproducts, Option.bind_map]
  apply Option.bind_congr
  intro doc hdoc
  obtain ⟨f, hf, rfl⟩ := List.mem_map.mp (List.mem_of_find?_eq_some hdoc)
  exact boardLookup_overlay (hschema f hf) channel rank lane

def chipRow (designator : String) (channel lane : ℤ) (hint : String) : PackageDoc :=
  ⟨some (ascii designator), channel, 0, lane, none, some (ascii hint)⟩

/-- `topology/820-01814-a.yaml` -/
def board82001814a : BoardDoc where
  boardId := ascii "820-01814-a"
  friendlyName := some (ascii "MacBook Pro 15 2018/2019 (A1990) 32GB")
  products := [some (ascii "MacBookPro15,1"), some (ascii "MacBookPro15,3")]
  chipWidth := some 8
  channels := some 2
  ranksPerChannel := some 1
  packages :=
    [chipRow "U2410" 0 0 "CH-A lane 0 (DDR0 bits 0-7)",
      chipRow "U2420" 0 1 "CH-A lane 1 (DDR0 bits 8-15)",
      chipRow "U2430" 0 2 "CH-A lane 2 (DDR0 bits 16-23)",
      chipRow "U2400" 0 3 "CH-A lane 3 (DDR0 bits 24-31)",
      chipRow "U2330" 0 4 "CH-A lane 4 (DDR0 bits 32-39)",
      chipRow "U2300" 0 5 "CH-A lane 5 (DDR0 bits 40-47)",
      chipRow "U2310" 0 6 "CH-A lane 6 (DDR0 bits 48-55)",
      chipRow "U2320" 0 7 "CH-A lane 7 (DDR0 bits 56-63)",
      chipRow "U2520" 1 0 "CH-B lane 0 (DDR1 bits 0-7)",
      chipRow "U2510" 1 1 "CH-B lane 1 (DDR1 bits 8-15)",
      chipRow "U2500" 1 2 "CH-B lane 2 (DDR1 bits 16-23)",
      chipRow "U2530" 1 3 "CH-B lane 3 (DDR1 bits 24-31)",
      chipRow "U2600" 1 4 "CH-B lane 4 (DDR1 bits 32-39)",
      chipRow "U2630" 1 5 "CH-B lane 5 (DDR1 bits 40-47)",
      chipRow "U2620" 1 6 "CH-B lane 6 (DDR1 bits 48-55)",
      chipRow "U2610" 1 7 "CH-B lane 7 (DDR1 bits 56-63)"]

def topologyFiles : List (List UInt8 × Option BoardDoc) :=
  [(ascii "820-01814-a.yaml", some board82001814a)]

/-- The profile which the lookups are given elsewhere is the one of this file. -/
theorem overlay_board82001814a :
    [board82001814a].map (fun doc => overlay (tableProfile doc)) = BoardTopology.boardProfiles := by
  decide +kernel

theorem plainText_of_all {s : List UInt8} (h : (s.all fun c => c != 0 && c != 0x0D) = true) :
    PlainText (some s) := by
  intro t ht c hc
  cases ht
  have hbyte := List.all_eq_true.mp h c hc
  rwa [Bool.and_eq_true, bne_iff_ne, bne_iff_ne] at hbyte

theorem chipRow_plain {designator hint : String} {channel lane : ℤ}
    (hdesignator : ((ascii designator).all fun c => c != 0 && c != 0x0D) = true)
    (hchannel : FitsLong channel) (hlane : FitsLong lane)
    (hhint : ((ascii hint).all fun c => c != 0 && c != 0x0D) = true) :
    (chipRow designator channel lane hint).Plain board82001814a where
  designator := plainText_of_all hdesignator
  channel := hchannel
  rank := (by decide : FitsLong 0)
  byteLane := hlane
  width := (by decide : FitsLong 8)
  locationHint := plainText_of_all hhint

theorem board82001814a_plain : board82001814a.Plain where
  boardId := plainText_of_all (by decide +kernel)
  friendlyName := plainText_of_all (by decide +kernel)
  products := by
    simp only [board82001814a, List.forall_mem_cons, List.not_mem_nil, false_imp_iff, implies_true,
      and_true]
    exact ⟨plainText_of_all (by decide +kernel), plainText_of_all (by decide +kernel)⟩
  productCount := (by decide : FitsLong 2)
  packageCount := (by decide : FitsLong 16)
  chipWidth := (by decide : FitsLong 8)
  channels := (by decide : FitsLong 2)
  ranksPerChannel := (by decide : FitsLong 1)
  packages := by
    simp only [board82001814a, List.forall_mem_cons, List.not_mem_nil, false_imp_iff, implies_true,
      and_true]
    refine ⟨?_, ?_, ?_, ?_, ?_, ?_, ?_, ?_, ?_, ?_, ?_, ?_, ?_, ?_, ?_, ?_⟩
    all_goals
      exact chipRow_plain (by decide +kernel) (by decide) (by decide) (by decide +kernel)

theorem board82001814a_inSchema : InSchema board82001814a where
  products := by decide
  packages := by decide
  channel := by decide
  rank := by decide
  byteLane := by decide
  width := by decide

theorem topologyFiles_oneLine : ∀ f ∈ boards topologyFiles, OneLine f.1 := by
  intro f hf
  obtain rfl := List.mem_singleton.mp hf
  have hname : ∀ c ∈ ascii "820-01814-a.yaml", breaksText c = false := by decide +kernel
  exact hname

theorem topologyFiles_plain : ∀ f ∈ boards topologyFiles, f.2.Plain := by
  intro f hf
  obtain rfl := List.mem_singleton.mp hf
  exact board82001814a_plain

/-- The file is compiled without `NULL`, too. -/
theorem generated_table_compiles_topology :
    compile false (generate topologyFiles) = some ⟨[tableProfile board82001814a], 1⟩ :=
  (generated_table_compiles false topologyFiles_oneLine topologyFiles_plain (by decide) _).mpr
    ⟨by decide +kernel, rfl⟩

theorem chip_found_as_written_topology :
    (BoardTopology.boardDetect [overlay (tableProfile board82001814a)]
        (some (ascii "MacBookPro15,1"))).bind (BoardTopology.boardLookup · 1 0 6) =
      some (boardPackage board82001814a
        (chipRow "U2620" 1 6 "CH-B lane 6 (DDR1 bits 48-55)")) := by
  have hschema : ∀ f ∈ boards topologyFiles, InSchema f.2 := by
    intro f hf
    obtain rfl := List.mem_singleton.mp hf
    exact board82001814a_inSchema
  have htable : compile true (generate topologyFiles) = some ⟨[tableProfile board82001814a], 1⟩ :=
    (compile_generate true topologyFiles_oneLine topologyFiles_plain (by decide)).trans
      (if_pos (by decide +kernel))
  have hfound := chip_found_as_written true topologyFiles_oneLine topologyFiles_plain (by decide)
    hschema htable (ascii "MacBookPro15,1") 1 0 6
  exact hfound.trans (by decide +kernel)

end BankFinder.CompiledTable
