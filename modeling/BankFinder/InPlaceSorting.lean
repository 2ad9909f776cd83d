import Mathlib

/-!
# Insertion sort in place

The usual loop on an array: the element at `i` is taken out, the larger elements in
front of it are moved up by one, and it is stored in the gap. The array is a list
whose length never changes. After the turn for `i` the first `i + 1` elements are
sorted, and the others have not been touched. The element at position `k` of the
result then splits the elements: at least `k + 1` are not larger, and all but `k`
are not smaller.
-/

namespace BankFinder.InPlaceSorting

variable {A : Type*} (larger : A → A → Prop) [DecidableRel larger]

/-- Move the larger elements before position `j` up, and store `key` in the gap. -/
def storeKey (key : A) : ℕ → List A → List A
  | 0, xs => xs.set 0 key
  | j + 1, xs =>
      if larger (xs.getD j key) key then storeKey key j (xs.set (j + 1) (xs.getD j key))
      else xs.set (j + 1) key

/-- One turn of the outer loop. -/
def sortTurn (xs : List A) (i : ℕ) : List A :=
  match xs[i]? with
  | some key => storeKey larger key i xs
  | none => xs

/-- `for (i = 1; i < n; i++)` -/
def sortInPlace (xs : List A) (n : ℕ) : List A := (List.range' 1 (n - 1)).foldl (sortTurn larger) xs

/-- The order of the part which is sorted, read from its end. -/
def Before (x y : A) : Prop := ¬larger y x

instance : DecidableRel (Before larger) := fun x y => inferInstanceAs (Decidable (¬larger y x))

theorem getD_append (p rest : List A) (x key : A) : (p ++ x :: rest).getD p.length key = x := by
  rw [List.getD_append_right _ _ _ _ le_rfl, Nat.sub_self]
  rfl

theorem set_append (p rest : List A) (x y : A) :
    (p ++ x :: rest).set p.length y = p ++ y :: rest := by
  rw [List.set_append_right _ _ le_rfl, Nat.sub_self]
  rfl

/-- The key goes where the ordered insertion puts it, seen from the end of the sorted part. -/
theorem storeKey_append (key x : A) (p rest : List A) :
    storeKey larger key p.length (p ++ x :: rest) =
      (List.orderedInsert (Before larger) key p.reverse).reverse ++ rest := by
  induction p using List.reverseRecOn generalizing x rest with
  | nil => rfl
  | append_singleton p y ih =>
      have hlast : (p ++ [y] ++ x :: rest).getD p.length key = y := by
        rw [List.append_assoc]
        exact getD_append p (x :: rest) y key
      have hset (z : A) : (p ++ [y] ++ x :: rest).set (p.length + 1) z = p ++ y :: z :: rest := by
        have hmiddle := set_append (p ++ [y]) rest x z
        rwa [List.length_append, List.length_singleton, List.append_assoc p [y] (z :: rest)]
          at hmiddle
      rw [List.length_append, List.length_singleton, storeKey, hlast, hset, hset,
        List.reverse_append, List.reverse_singleton, List.singleton_append, List.orderedInsert]
      by_cases hlarger : larger y key
      · have hbefore : ¬Before larger key y := not_not.mpr hlarger
        rw [if_pos hlarger, if_neg hbefore, ih, List.reverse_cons, List.append_assoc]
        rfl
      · have hbefore : Before larger key y := hlarger
        rw [if_neg hlarger, if_pos hbefore, List.reverse_cons, List.reverse_cons,
          List.reverse_reverse, List.append_assoc, List.append_assoc]
        rfl

/-- After `n` turns the first `n + 1` elements are sorted and the others are as they were. -/
theorem turns_eq (xs : List A) {n : ℕ} (hn : n < xs.length) :
    (List.range' 1 n).foldl (sortTurn larger) xs =
      ((xs.take (n + 1)).reverse.insertionSort (Before larger)).reverse ++ xs.drop (n + 1) := by
  induction n with
  | zero =>
      cases xs with
      | nil => exact absurd hn (Nat.not_lt_zero 0)
      | cons x xs => rfl
  | succ n ih =>
      have hbefore := ih (Nat.lt_of_succ_lt hn)
      have hdrop : xs.drop (n + 1) = xs[n + 1] :: xs.drop (n + 2) := List.drop_eq_getElem_cons hn
      have htake : (xs.take (n + 2)).reverse = xs[n + 1] :: (xs.take (n + 1)).reverse := by
        rw [List.take_succ_eq_append_getElem hn, List.reverse_append, List.reverse_singleton,
          List.singleton_append]
      obtain ⟨key, hkey⟩ : ∃ key, xs[n + 1] = key := ⟨_, rfl⟩
      rw [hkey] at hdrop htake
      rw [List.range'_concat, List.foldl_append, hbefore, htake, List.insertionSort_cons, hdrop]
      generalize hsorted : (xs.take (n + 1)).reverse.insertionSort (Before larger) = sorted
      have hlength : sorted.reverse.length = n + 1 := by
        rw [← hsorted, List.length_reverse, List.length_insertionSort, List.length_reverse,
          List.length_take]
        omega
      have hstore := storeKey_append larger key key sorted.reverse (xs.drop (n + 2))
      rw [hlength, List.reverse_reverse] at hstore
      have hget : (sorted.reverse ++ key :: xs.drop (n + 2))[n + 1]? = some key := by
        rw [← hlength, List.getElem?_append_right le_rfl, Nat.sub_self]
        rfl
      rw [List.foldl_cons, List.foldl_nil, Nat.one_mul, Nat.add_comm 1 n, sortTurn, hget]
      exact hstore

theorem sortInPlace_eq (xs : List A) : sortInPlace larger xs xs.length =
    (xs.reverse.insertionSort (Before larger)).reverse := by
  cases xs with
  | nil => rfl
  | cons x xs =>
      have hturns := turns_eq larger (x :: xs) (show xs.length < (x :: xs).length from Nat.lt_succ_self _)
      have hall : xs.length + 1 = (x :: xs).length := rfl
      rw [hall, List.take_length, List.drop_length, List.append_nil] at hturns
      exact hturns

theorem sortInPlace_perm (xs : List A) : (sortInPlace larger xs xs.length).Perm xs := by
  rw [sortInPlace_eq]
  exact (List.reverse_perm _).trans
    ((List.perm_insertionSort (Before larger) xs.reverse).trans (List.reverse_perm xs))

/-- No element stands before a larger one's place: what comes earlier is not larger. -/
theorem sortInPlace_sorted [Std.Total (Before larger)] [IsTrans A (Before larger)] (xs : List A) :
    (sortInPlace larger xs xs.length).Pairwise fun x y => ¬larger x y := by
  rw [sortInPlace_eq, List.pairwise_reverse]
  exact List.pairwise_insertionSort (Before larger) xs.reverse

/-- Enough elements on both sides of `m`, itself among them. -/
structure RankIs (xs : List A) (k : ℕ) (m : A) : Prop where
  mem : m ∈ xs
  below : k + 1 ≤ xs.countP fun x => ¬larger x m
  above : xs.length - k ≤ xs.countP fun x => ¬larger m x

theorem rankIs_sorted (hirrefl : ∀ x, ¬larger x x) {xs : List A}
    (h : xs.Pairwise fun x y => ¬larger x y) {k : ℕ} (hk : k < xs.length) :
    RankIs larger xs k xs[k] := by
  have hsplit : xs = xs.take k ++ xs[k] :: xs.drop (k + 1) := by
    rw [← List.drop_eq_getElem_cons hk, List.take_append_drop]
  obtain ⟨m, hm⟩ : ∃ m, xs[k] = m := ⟨_, rfl⟩
  rw [hm] at hsplit ⊢
  have hbefore : (xs.take k).length = k := List.length_take_of_le hk.le
  have hafter : (xs.drop (k + 1)).length = xs.length - (k + 1) := List.length_drop
  generalize xs.take k = before at hsplit hbefore
  generalize xs.drop (k + 1) = after at hsplit hafter
  rw [hsplit, List.pairwise_append, List.pairwise_cons] at h
  obtain ⟨-, ⟨hhead, -⟩, hcross⟩ := h
  have hlow : before.countP (fun x => ¬larger x m) = before.length :=
    List.countP_eq_length.mpr fun x hx => by simpa using hcross x hx m List.mem_cons_self
  have hhigh : after.countP (fun x => ¬larger m x) = after.length :=
    List.countP_eq_length.mpr fun x hx => by simpa using hhead x hx
  constructor
  · rw [hsplit]
    simp
  · rw [hsplit, List.countP_append, hlow, List.countP_cons_of_pos (by simpa using hirrefl m)]
    omega
  · rw [hsplit, List.countP_append, List.countP_cons_of_pos (by simpa using hirrefl m), hhigh,
      ← hsplit]
    omega

theorem RankIs.perm {xs ys : List A} (hperm : xs.Perm ys) {k : ℕ} {m : A}
    (h : RankIs larger xs k m) : RankIs larger ys k m where
  mem := hperm.mem_iff.mp h.mem
  below := by
    rw [← hperm.countP_eq]
    exact h.below
  above := by
    rw [← hperm.countP_eq, ← hperm.length_eq]
    exact h.above

/-- There is one element at a position, up to elements of which neither is larger. -/
theorem RankIs.not_larger [IsTrans A (Before larger)] {xs : List A} {k : ℕ} {m m' : A}
    (hk : k < xs.length) (h : RankIs larger xs k m) (h' : RankIs larger xs k m') :
    ¬larger m m' := by
  intro hlarger
  -- nothing is both below `m'` and above `m`
  have hapart : xs.countP (fun x => ¬larger m x) ≤ xs.countP (fun x => ¬decide (¬larger x m')) := by
    refine List.countP_mono_left fun x _ hx => ?_
    by_contra hnot
    have hbelow : Before larger m' x := by simpa [Before] using hnot
    have habove : Before larger x m := by simpa [Before] using hx
    exact IsTrans.trans m' x m hbelow habove hlarger
  have hall := List.length_eq_countP_add_countP (fun x => decide (¬larger x m')) (l := xs)
  have hbelow := h'.below
  have habove := h.above
  omega

end BankFinder.InPlaceSorting
