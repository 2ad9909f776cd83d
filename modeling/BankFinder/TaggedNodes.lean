import BankFinder.LittleEndian

/-!
# Nodes with a type and a length

A node is a type, a subtype, its own length in two bytes and a body. Whoever walks along
a list of nodes adds up the lengths. The body may hold a text of 16-bit units, which ends
with a NUL.
-/

namespace BankFinder.TaggedNodes
open LittleEndian

/-- A byte which is left over is no unit. -/
def units : List UInt8 → List UInt16
  | lo :: hi :: bytes => UInt16.ofNat (lo.toNat + 256 * hi.toNat) :: units bytes
  | _ => []

def unitBytes (us : List UInt16) : List UInt8 := us.flatMap fun u => encode 2 u.toNat

theorem length_unitBytes (us : List UInt16) : (unitBytes us).length = 2 * us.length := by
  induction us with
  | nil => rfl
  | cons u us ih =>
      rw [unitBytes, List.flatMap_cons, List.length_append, length_encode, List.length_cons]
      unfold unitBytes at ih
      omega

theorem units_encode (u : UInt16) (bytes : List UInt8) :
    units (encode 2 u.toNat ++ bytes) = u :: units bytes := by
  have hdecode : decode (encode 2 u.toNat) = u.toNat := decode_encode_of_lt u.toNat_lt
  simp only [encode, decode, Nat.mul_zero, Nat.add_zero] at hdecode
  simp only [encode, List.cons_append, List.nil_append, units]
  rw [hdecode, UInt16.ofNat_toNat]

theorem units_unitBytes (us : List UInt16) (bytes : List UInt8) :
    units (unitBytes us ++ bytes) = us ++ units bytes := by
  induction us with
  | nil => rfl
  | cons u us ih =>
      rw [unitBytes, List.flatMap_cons, List.append_assoc, units_encode]
      exact congrArg (u :: ·) ih

theorem units_drop (bytes : List UInt8) (k : ℕ) :
    units (bytes.drop (2 * k)) = (units bytes).drop k := by
  induction k generalizing bytes with
  | zero => rfl
  | succ k ih =>
      rw [show 2 * (k + 1) = 2 * k + 2 by omega]
      match bytes with
      | [] => simp [units]
      | [b] => simp [units]
      | lo :: hi :: bytes => exact ih bytes

theorem length_units (bytes : List UInt8) : (units bytes).length = bytes.length / 2 := by
  induction bytes using units.induct with
  | case1 lo hi bytes ih =>
      rw [units, List.length_cons, ih, List.length_cons, List.length_cons]
      omega
  | case2 bytes hshort =>
      match bytes with
      | [] => rfl
      | [b] => simp [units]
      | lo :: hi :: bytes => exact absurd rfl (hshort lo hi bytes)

theorem units_take (bytes rest : List UInt8) :
    (units (bytes ++ rest)).take (bytes.length / 2) = units bytes := by
  induction bytes using units.induct with
  | case1 lo hi bytes ih =>
      have hlen : (lo :: hi :: bytes).length / 2 = bytes.length / 2 + 1 := by
        rw [List.length_cons, List.length_cons]
        omega
      rw [hlen, List.cons_append, List.cons_append, units, List.take_succ_cons, ih, units]
  | case2 bytes hshort =>
      match bytes with
      | [] => rfl
      | [b] => simp [units]
      | lo :: hi :: bytes => exact absurd rfl (hshort lo hi bytes)

/-- What stands in front of the NUL. -/
def textOf (us : List UInt16) : List UInt16 := us.takeWhile (· ≠ 0)

@[simp] theorem textOf_nil : textOf [] = [] := rfl

@[simp] theorem textOf_zero (us : List UInt16) : textOf (0 :: us) = [] :=
  List.takeWhile_cons_of_neg (by simp)

theorem textOf_cons {u : UInt16} (h : u ≠ 0) (us : List UInt16) :
    textOf (u :: us) = u :: textOf us :=
  List.takeWhile_cons_of_pos (decide_eq_true h)

theorem textOf_terminated {text : List UInt16} (h : 0 ∉ text) (rest : List UInt16) :
    textOf (text ++ 0 :: rest) = text := by
  induction text with
  | nil => exact textOf_zero rest
  | cons u text ih =>
      rw [List.mem_cons, not_or] at h
      rw [List.cons_append, textOf_cons (Ne.symm h.1), ih h.2]

/-- The unit behind the text is the NUL, or there is none. -/
theorem lt_length_textOf {us : List UInt16} {i : ℕ} (h : i ≤ (textOf us).length) :
    i < (textOf us).length ↔ ∃ u, us[i]? = some u ∧ u ≠ 0 := by
  induction us generalizing i with
  | nil => simp
  | cons c us ih =>
      by_cases hc : c = 0
      · rw [hc, textOf_zero, List.length_nil, Nat.le_zero] at h
        simp [hc, h]
      · rw [textOf_cons hc, List.length_cons] at h ⊢
        cases i with
        | zero => simp [hc]
        | succ i =>
            rw [List.getElem?_cons_succ, Nat.succ_lt_succ_iff]
            exact ih (Nat.le_of_succ_le_succ h)

theorem textOf_split {us : List UInt16} (h : 0 ∈ us) :
    ∃ rest, us = textOf us ++ 0 :: rest ∧ 0 ∉ textOf us := by
  induction us with
  | nil => exact absurd h List.not_mem_nil
  | cons c us ih =>
      by_cases hc : c = 0
      · exact ⟨us, by rw [hc, textOf_zero]; rfl, by rw [hc, textOf_zero]; exact List.not_mem_nil⟩
      · obtain ⟨rest, hsplit, hnul⟩ := ih ((List.mem_cons.mp h).resolve_left (Ne.symm hc))
        refine ⟨rest, ?_, ?_⟩
        · rw [textOf_cons hc, List.cons_append, ← hsplit]
        · rw [textOf_cons hc, List.mem_cons, not_or]
          exact ⟨Ne.symm hc, hnul⟩

theorem textOf_open {us : List UInt16} (h : 0 ∉ us) : textOf us = us := by
  have hall : ∀ u ∈ us, decide (u ≠ 0) = true := by
    intro u hu
    exact decide_eq_true fun hzero => h (hzero ▸ hu)
  exact List.takeWhile_eq_self_iff.mpr hall

structure TaggedNode where
  type : UInt8
  subType : UInt8
  body : List UInt8
  short : 4 + body.length < 2 ^ 16

/-- The length field at the beginning of `bytes`. -/
def lengthField (bytes : List UInt8) : ℕ :=
  (bytes.getD 2 0).toNat + 256 * (bytes.getD 3 0).toNat

namespace TaggedNode

def size (n : TaggedNode) : ℕ := 4 + n.body.length

def bytes (n : TaggedNode) : List UInt8 := [n.type, n.subType] ++ encode 2 n.size ++ n.body

def text (n : TaggedNode) : List UInt16 := textOf (units n.body)

def is (type subType : UInt8) (n : TaggedNode) : Prop := n.type = type ∧ n.subType = subType

instance (type subType : UInt8) (n : TaggedNode) : Decidable (n.is type subType) :=
  inferInstanceAs (Decidable (_ ∧ _))

variable (n : TaggedNode) (rest : List UInt8)

theorem length_bytes : n.bytes.length = n.size := by
  simp only [bytes, List.length_append, List.length_cons, List.length_nil, length_encode, size]

@[simp] theorem getD_type : (n.bytes ++ rest).getD 0 0 = n.type := rfl

@[simp] theorem getD_subType : (n.bytes ++ rest).getD 1 0 = n.subType := rfl

@[simp] theorem lengthField_bytes : lengthField (n.bytes ++ rest) = n.size := by
  have hdecode : decode (encode 2 n.size) = n.size := decode_encode_of_lt n.short
  simp only [encode, decode, Nat.mul_zero, Nat.add_zero] at hdecode
  exact hdecode

@[simp] theorem drop_size : (n.bytes ++ rest).drop n.size = rest :=
  List.drop_left' n.length_bytes

theorem drop_header : (n.bytes ++ rest).drop 4 = n.body ++ rest := rfl

end TaggedNode

def bytesOf (nodes : List TaggedNode) : List UInt8 := nodes.flatMap TaggedNode.bytes

@[simp] theorem bytesOf_nil : bytesOf [] = [] := rfl

theorem bytesOf_cons (n : TaggedNode) (nodes : List TaggedNode) :
    bytesOf (n :: nodes) = n.bytes ++ bytesOf nodes := List.flatMap_cons

/-- A walk which adds the length of each node to what it finds behind it. -/
theorem walk_nodes {f : ℕ → List UInt8 → ℕ} {inner : TaggedNode → Prop}
    (hstep : ∀ n, inner n → ∀ fuel rest, f (fuel + 1) (n.bytes ++ rest) = n.size + f fuel rest)
    {nodes : List TaggedNode} (h : ∀ n ∈ nodes, inner n) (fuel : ℕ) (rest : List UInt8) :
    f (nodes.length + fuel) (bytesOf nodes ++ rest) = (bytesOf nodes).length + f fuel rest := by
  induction nodes with
  | nil => rw [bytesOf_nil, List.nil_append, List.length_nil, List.length_nil, Nat.zero_add,
      Nat.zero_add]
  | cons n nodes ih =>
      have hrest := ih fun n hn => h n (List.mem_cons_of_mem _ hn)
      rw [bytesOf_cons, List.append_assoc, List.length_cons, List.length_append, n.length_bytes,
        Nat.add_right_comm, hstep n (h n List.mem_cons_self), hrest, Nat.add_assoc]

theorem length_nodes_le (nodes : List TaggedNode) : nodes.length ≤ (bytesOf nodes).length := by
  induction nodes with
  | nil => exact Nat.zero_le _
  | cons n nodes ih =>
      rw [bytesOf_cons, List.length_append, List.length_cons, n.length_bytes, TaggedNode.size]
      omega

/-- The texts of the nodes of one kind. -/
def textsOf (type subType : UInt8) (nodes : List TaggedNode) : List UInt16 :=
  nodes.flatMap fun n => if n.is type subType then n.text else []

theorem textsOf_cons (type subType : UInt8) (n : TaggedNode) (nodes : List TaggedNode) :
    textsOf type subType (n :: nodes) =
      (if n.is type subType then n.text else []) ++ textsOf type subType nodes :=
  List.flatMap_cons

theorem textsOf_append (type subType : UInt8) (nodes more : List TaggedNode) :
    textsOf type subType (nodes ++ more) =
      textsOf type subType nodes ++ textsOf type subType more :=
  List.flatMap_append

theorem textsOf_eq_nil {type subType : UInt8} {nodes : List TaggedNode}
    (h : ∀ n ∈ nodes, ¬n.is type subType) : textsOf type subType nodes = [] := by
  apply List.flatMap_eq_nil_iff.mpr
  intro n hn
  exact if_neg (h n hn)

end BankFinder.TaggedNodes
