import Mathlib.Data.List.Nodup
import Mathlib.Data.List.Perm.Subperm
import DoBlocks.Hidden

/-!
# Generated names are new

A generated name ends in an underscore and its number, so its written form determines the number. A
name in use therefore blocks one number at most, and among one more numbers than there are names in
use there is a free one: what an allocator hands out is never in use, and is in use from then on.
-/

namespace DoBlocks

/-! ### The number of a generated name -/

/-- The digits of a number, with a minus sign in front if it is negative. -/
theorem toList_toString_int (i : Int) :
    (toString i).toList =
      if 0 ≤ i then Nat.toDigits 10 i.toNat else '-' :: Nat.toDigits 10 (-i).toNat := by
  rw [Int.toString_eq_repr, Int.repr_eq_if]
  split <;> simp [Nat.repr_eq_ofList_toDigits]

theorem underscore_notMem_toDigits (n : Nat) : '_' ∉ Nat.toDigits 10 n := fun h =>
  absurd (Nat.isDigit_of_mem_toDigits (by decide) (by decide) h) (by decide)

theorem minus_notMem_toDigits (n : Nat) : '-' ∉ Nat.toDigits 10 n := fun h =>
  absurd (Nat.isDigit_of_mem_toDigits (by decide) (by decide) h) (by decide)

theorem toDigits_injective {m n : Nat} (h : Nat.toDigits 10 m = Nat.toDigits 10 n) : m = n := by
  rw [← @Nat.ofDigitChars_ten_toDigits m, h, Nat.ofDigitChars_ten_toDigits]

theorem underscore_notMem_toString_int (i : Int) : '_' ∉ (toString i).toList := by
  rw [toList_toString_int]
  split
  · exact underscore_notMem_toDigits _
  · rw [List.mem_cons]
    rintro (h | h)
    · exact absurd h (by decide)
    · exact underscore_notMem_toDigits _ h

theorem toString_int_injective {i j : Int} (h : (toString i).toList = (toString j).toList) :
    i = j := by
  rw [toList_toString_int, toList_toString_int] at h
  split at h <;> split at h
  · have := toDigits_injective h
    omega
  · exact absurd (h ▸ List.mem_cons_self) (minus_notMem_toDigits _)
  · exact absurd (h ▸ List.mem_cons_self) (minus_notMem_toDigits _)
  · have := toDigits_injective (List.cons.inj h).2
    omega

/-- What follows the last underscore is determined by the whole. -/
theorem append_underscore_right {xs xs' ys ys' : List Char} (hy : '_' ∉ ys) (hy' : '_' ∉ ys')
    (h : xs ++ '_' :: ys = xs' ++ '_' :: ys') : ys = ys' := by
  have last (xs ys : List Char) (hy : '_' ∉ ys) :
      (xs ++ '_' :: ys).reverse.takeWhile (· != '_') = ys.reverse := by
    rw [List.reverse_append, List.reverse_cons, List.append_assoc,
      List.takeWhile_append_of_pos]
    · simp
    · intro c hc
      have : c ≠ '_' := fun e => hy (e ▸ List.mem_reverse.1 hc)
      simpa using this
  have := last xs ys hy
  rw [h, last xs' ys' hy'] at this
  exact (List.reverse_inj.1 this).symm

namespace HiddenName

theorem toList_render (n : HiddenName) :
    n.render.toList =
      (n.stem.toList ++ '_' :: n.role.toList) ++ '_' :: (toString n.index).toList := by
  have h : n.render = n.stem ++ "_" ++ n.role ++ "_" ++ toString n.index := rfl
  simp [h]

/-- The written form of a generated name determines its number. -/
theorem index_eq_of_render_eq {m n : HiddenName} (h : m.render = n.render) : m.index = n.index := by
  have h := congrArg String.toList h
  rw [toList_render, toList_render] at h
  exact toString_int_injective (append_underscore_right (underscore_notMem_toString_int _)
    (underscore_notMem_toString_int _) h)

end HiddenName

/-! ### Drawing names -/

namespace Allocator

variable {a : Allocator} {roles : List String} {i : Int}

theorem isFree_iff :
    a.isFree roles i = true ↔ ∀ r ∈ roles, (a.name r i).render ∉ a.reserved := by
  simp [isFree, isReserved]

/-- A number that is not free is the number of a name in use. -/
theorem exists_reserved_of_not_isFree (h : ¬ a.isFree roles i = true) :
    ∃ n : HiddenName, n.index = i ∧ n.render ∈ a.reserved := by
  rw [isFree_iff] at h
  push Not at h
  obtain ⟨r, -, hr⟩ := h
  exact ⟨a.name r i, rfl, hr⟩

/-- A search that ends at a number in use has only met such numbers. -/
theorem not_isFree_of_firstFree {fuel : Nat} (h : ¬ a.isFree roles (a.firstFree roles fuel i) = true) {k : Nat}
    (hk : k ≤ fuel) :
    ¬ a.isFree roles (i + k) = true := by
  induction fuel generalizing i k with
  | zero =>
    obtain rfl : k = 0 := by omega
    simpa [firstFree] using h
  | succ fuel ih =>
    rw [firstFree] at h
    split at h
    · contradiction
    · cases k with
      | zero => simpa using ‹¬ a.isFree roles i = true›
      | succ k =>
        have := ih h (k := k) (by omega)
        rwa [show i + 1 + (k : Int) = i + (k + 1 : Nat) by omega] at this

/-- The names in use are too few to block all numbers that the search looks at. -/
theorem isFree_firstFree (a : Allocator) (roles : List String) (i : Int) :
    a.isFree roles (a.firstFree roles a.reserved.length i) = true := by
  by_contra h
  have blocked (k : Nat) (hk : k ≤ a.reserved.length) :
      ∃ n : HiddenName, n.index = i + k ∧ n.render ∈ a.reserved :=
    exists_reserved_of_not_isFree (not_isFree_of_firstFree h hk)
  choose! name index_name mem_name using blocked
  have distinct : ((List.range (a.reserved.length + 1)).map fun k => (name k).render).Nodup := by
    refine List.Nodup.map_on (fun k hk l hl e => ?_) List.nodup_range
    have hk := index_name k (Nat.lt_succ_iff.1 (List.mem_range.1 hk))
    have hl := index_name l (Nat.lt_succ_iff.1 (List.mem_range.1 hl))
    have := HiddenName.index_eq_of_render_eq e
    omega
  have used : ((List.range (a.reserved.length + 1)).map fun k => (name k).render) ⊆ a.reserved := by
    intro s hs
    obtain ⟨k, hk, rfl⟩ := List.mem_map.1 hs
    exact mem_name k (Nat.lt_succ_iff.1 (List.mem_range.1 hk))
  have := (List.subperm_of_subset distinct used).length_le
  rw [List.length_map, List.length_range] at this
  omega

theorem isFree_draw (a : Allocator) (roles : List String) :
    a.isFree roles (a.draw roles).1 = true := isFree_firstFree a roles a.next

/-- A fresh name was not in use. -/
theorem fresh_notMem_reserved (a : Allocator) (role : String) :
    (a.fresh role).1.render ∉ a.reserved :=
  isFree_iff.1 (a.isFree_draw [role]) role (by simp)

theorem reserved_fresh (a : Allocator) (role : String) :
    (a.fresh role).2.reserved = (a.fresh role).1.render :: a.reserved := rfl

/-- The names of a wrapper were not in use. -/
theorem wrapper_result_notMem_reserved (a : Allocator) : a.wrapper.1.result.render ∉ a.reserved :=
  isFree_iff.1 (a.isFree_draw ["result", "exit"]) "result" (by simp)

theorem wrapper_exit_notMem_reserved (a : Allocator) : a.wrapper.1.exit.render ∉ a.reserved :=
  isFree_iff.1 (a.isFree_draw ["result", "exit"]) "exit" (by simp)

theorem reserved_wrapper (a : Allocator) :
    a.wrapper.2.reserved = a.wrapper.1.result.render :: a.wrapper.1.exit.render :: a.reserved := rfl

/-- The two names of a wrapper are written differently: they share stem and number. -/
theorem wrapper_result_ne_exit (a : Allocator) :
    a.wrapper.1.result.render ≠ a.wrapper.1.exit.render := by
  intro h
  have h := congrArg (List.length ∘ String.toList) h
  simp [HiddenName.toList_render, wrapper, name] at h
  omega

end Allocator

end DoBlocks
