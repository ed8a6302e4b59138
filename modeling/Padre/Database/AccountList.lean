import Mathlib.Data.List.ReduceOption
import Padre.Model.Accounts

/-! # The account list keeps every entry

`Holds list xs` ties the slots of an account list to the accounts pushed so far: the
written slots come first and in order, and the allocation is never full and never empty
of room for one more doubling.
-/
namespace Padre.AccountList

/-- The list holds `xs` in its first slots and has written no other. -/
structure Holds (list : AccountList) (xs : List (Account ℕ)) : Prop where
  slots : list.accounts = xs.map some ++ List.replicate (list.capacity - xs.length) none
  size : list.size = xs.length
  fits : xs.length ≤ list.capacity
  room : 1 ≤ list.capacity

variable {list : AccountList} {xs : List (Account ℕ)}

theorem Holds.entries (h : Holds list xs) : list.entries = xs := by
  rw [AccountList.entries, h.slots, h.size]
  have htake : (xs.map some ++ List.replicate (list.capacity - xs.length) none).take xs.length =
      xs.map some := by
    simp
  rw [htake]
  simp [List.reduceOption]

theorem holds_new {capacity : ℕ} (h : 1 ≤ capacity) : Holds (newAccountList capacity) [] := by
  constructor
  all_goals simp [newAccountList, h]

/-- The size estimate is at least one for a buffer of any size. -/
theorem holds_start (mem : List UInt8) (begin end_ : ℕ) : Holds (parseStart mem begin end_).list [] := by
  apply holds_new
  unfold AVERAGE_DATABASE_ENTRY_SIZE
  split
  · exact le_rfl
  · omega

theorem Holds.grow (h : Holds list xs) :
    Holds (growAccountList list) xs ∧ xs.length < (growAccountList list).capacity := by
  unfold growAccountList
  by_cases hfull : list.size = list.capacity
  · have hlen : xs.length = list.capacity := h.size ▸ hfull
    have hroom := h.room
    rw [if_pos hfull]
    refine ⟨⟨?_,h.size,?_,?_⟩,?_⟩
    · have htake : list.accounts.take (list.capacity * 2) = xs.map some := by
        rw [h.slots, hlen]
        simp only [Nat.sub_self, List.replicate_zero, List.append_nil]
        exact List.take_of_length_le (by simp; omega)
      have hslots : list.accounts.length = xs.length := by simp [h.slots, hlen]
      simp only [reallocSlots]
      rw [htake, hslots]
    all_goals dsimp only
    all_goals omega
  · have hlt : xs.length < list.capacity := by
      have := h.fits
      have := h.size
      omega
    rw [if_neg hfull]
    exact ⟨h,hlt⟩

/-- The slot a push writes to is one of the slots allocated at that moment. -/
theorem Holds.slot (h : Holds list xs) :
    (growAccountList list).size < (growAccountList list).capacity ∧
    (growAccountList list).accounts.length = (growAccountList list).capacity := by
  obtain ⟨hgrown,hlt⟩ := h.grow
  constructor
  · rw [hgrown.size]
    exact hlt
  · rw [hgrown.slots, List.length_append, List.length_map, List.length_replicate]
    omega

/-- A push appends, at an index inside the allocation of that moment. -/
theorem Holds.push (h : Holds list xs) (a : Account ℕ) : Holds (pushAccount list a) (xs ++ [a]) := by
  obtain ⟨hg,hlt⟩ := h.grow
  have hsize := hg.size
  refine ⟨?_,?_,?_,hg.room⟩
  · obtain ⟨k,hk⟩ := Nat.exists_eq_add_of_lt hlt
    have hrest : (growAccountList list).capacity - xs.length = k + 1 := by omega
    have hrest' : (growAccountList list).capacity - (xs ++ [a]).length = k := by
      simp only [List.length_append, List.length_cons, List.length_nil]
      omega
    simp only [pushAccount]
    rw [hrest', hg.slots, hsize, hrest, List.replicate_succ]
    simp
  · simp [pushAccount, hsize]
  · simp only [pushAccount, List.length_append, List.length_cons, List.length_nil]
    omega

theorem entries_free : freeAccountList.entries = [] := rfl

end Padre.AccountList
