import Mathlib.Order.Bounds.Basic
import DoBlocks.Proofs.Freshness

/-!
# Histories of an allocator

An allocator serves requests one after another: names are put aside, a name is asked for, a pair is asked for. Roles
are arbitrary texts, so two names of different roles can be written alike; what keeps them apart is that every name
put aside or handed out stays in use. Each number drawn is the least one from the counter on that is free, and the
counter moves past it.
-/

namespace DoBlocks

/-- What an allocator can be asked for. -/
inductive Request where
  | reserve (names : List String)
  | fresh (role : String)
  | wrapper
  deriving Repr, DecidableEq

/-- The roles of the names that are asked for. -/
def Request.roles : Request → List String
  | reserve _ => []
  | fresh role => [role]
  | wrapper => ["result", "exit"]

/-- The names that are put aside. -/
def Request.aside : Request → List String
  | reserve names => names
  | fresh _ => []
  | wrapper => []

namespace Allocator

variable {a : Allocator} {roles : List String} {i : Int} {r : Request} {s : String} {n : HiddenName}
  {rs : List Request}

/-- The names handed out for a request, and the allocator after it. -/
def serve (a : Allocator) : Request → List HiddenName × Allocator
  | .reserve names => ([], a.reserve names)
  | .fresh role => ([(a.fresh role).1], (a.fresh role).2)
  | .wrapper => ([a.wrapper.1.result, a.wrapper.1.exit], a.wrapper.2)

/-- The allocator after a history of requests. -/
def after (a : Allocator) : List Request → Allocator
  | [] => a
  | r :: rs => (a.serve r).2.after rs

/-- What is handed out for each request of a history. -/
def answers (a : Allocator) : List Request → List (List HiddenName)
  | [] => []
  | r :: rs => (a.serve r).1 :: (a.serve r).2.answers rs

/-- The names of a history, put aside or handed out. -/
def mentioned (a : Allocator) (rs : List Request) : List String :=
  rs.flatMap Request.aside ++ (a.answers rs).flatten.map HiddenName.render

/-- The numbers used in a history, one for each request that names were handed out for. -/
def numbers (a : Allocator) (rs : List Request) : List Int :=
  (a.answers rs).filterMap fun names => names.head?.map HiddenName.index

/-- The search for a number that is free, however long it takes: it ends where the number is free and otherwise goes
on from the next one. -/
inductive Finds (a : Allocator) (roles : List String) : Int → Int → Prop
  | here {i : Int} : a.isFree roles i = true → Finds a roles i i
  | next {i j : Int} : a.isFree roles i = false → Finds a roles (i + 1) j → Finds a roles i j

/-! ### One draw -/

theorem Finds.isLeast {j : Int} (h : a.Finds roles i j) :
    IsLeast {k | i ≤ k ∧ a.isFree roles k = true} j := by
  induction h with
  | here hfree => exact ⟨⟨le_rfl, hfree⟩, fun k hk => hk.1⟩
  | @next i j hused _ ih =>
    refine ⟨⟨by have := ih.1.1; omega, ih.1.2⟩, fun k hk => ih.2 ⟨?_, hk.2⟩⟩
    have hne : k ≠ i := by
      rintro rfl
      exact absurd hk.2 (by simp [hused])
    have := hk.1
    omega

theorem finds_of_isFree_firstFree {fuel : Nat} (h : a.isFree roles (a.firstFree roles fuel i) = true) :
    a.Finds roles i (a.firstFree roles fuel i) := by
  induction fuel generalizing i with
  | zero => exact .here h
  | succ fuel ih =>
    rw [firstFree] at h ⊢
    split at h
    · rw [if_pos ‹_›]
      exact .here h
    · rw [if_neg ‹_›]
      exact .next (by simpa using ‹¬ a.isFree roles i = true›) (ih h)

theorem finds_draw (a : Allocator) (roles : List String) : a.Finds roles a.next (a.draw roles).1 :=
  finds_of_isFree_firstFree (a.isFree_draw roles)

/-! ### One request -/

/-- The names handed out have the roles asked for and one number. -/
theorem serve_fst (a : Allocator) (r : Request) : (a.serve r).1 = r.roles.map (a.name · (a.draw r.roles).1) := by
  cases r <;> rfl

theorem stem_serve (a : Allocator) (r : Request) : (a.serve r).2.stem = a.stem := by
  cases r <;> rfl

theorem next_serve (a : Allocator) (r : Request) :
    (a.serve r).2.next = ((a.serve r).1.head?.map (·.index + 1)).getD a.next := by
  cases r <;> rfl

theorem mem_reserved_serve :
    s ∈ (a.serve r).2.reserved ↔ s ∈ a.reserved ∨ s ∈ r.aside ∨ s ∈ (a.serve r).1.map HiddenName.render := by
  cases r with
  | reserve names => simp [serve, reserve, Request.aside, or_comm]
  | fresh role => simp [serve, reserved_fresh, Request.aside, or_comm]
  | wrapper => simp [serve, reserved_wrapper, Request.aside, or_comm, or_left_comm]

theorem notMem_reserved_of_mem_serve (h : n ∈ (a.serve r).1) :
    n.render ∉ a.reserved := by
  rw [serve_fst] at h
  obtain ⟨role, hrole, rfl⟩ := List.mem_map.1 h
  exact isFree_iff.1 (a.isFree_draw r.roles) role hrole

theorem nodup_serve (a : Allocator) (r : Request) : ((a.serve r).1.map HiddenName.render).Nodup := by
  cases r with
  | reserve names => exact List.nodup_nil
  | fresh role => exact List.nodup_singleton _
  | wrapper => simpa [serve] using a.wrapper_result_ne_exit

/-- The counter does not go back, and goes past a number that is used. -/
theorem lt_next_serve (h : n ∈ (a.serve r).1) :
    a.next ≤ n.index ∧ n.index < (a.serve r).2.next := by
  have hnumber : ∀ m ∈ (a.serve r).1, m.index = (a.draw r.roles).1 := by
    intro m hm
    rw [serve_fst] at hm
    obtain ⟨role, -, rfl⟩ := List.mem_map.1 hm
    rfl
  have hhead : (a.serve r).1.head? = some ((a.serve r).1.head (List.ne_nil_of_mem h)) :=
    List.head?_eq_some_head _
  rw [next_serve, hhead, hnumber n h]
  have := (a.finds_draw r.roles).isLeast.1.1
  simp only [Option.map_some, Option.getD_some, hnumber _ (List.head_mem _)]
  omega

theorem next_le_next_serve (a : Allocator) (r : Request) : a.next ≤ (a.serve r).2.next := by
  cases hnames : (a.serve r).1 with
  | nil => simp [next_serve, hnames]
  | cons n names =>
    obtain ⟨hle, hlt⟩ := lt_next_serve (show n ∈ (a.serve r).1 by simp [hnames])
    omega

/-! ### A history -/

theorem stem_after (a : Allocator) (rs : List Request) : (a.after rs).stem = a.stem := by
  induction rs generalizing a with
  | nil => rfl
  | cons r rs ih => rw [after, ih, stem_serve]

/-- The counter stands after the last number that was used. -/
theorem next_after (a : Allocator) (rs : List Request) :
    (a.after rs).next = ((a.numbers rs).getLast?.map (· + 1)).getD a.next := by
  induction rs generalizing a with
  | nil => rfl
  | cons r rs ih =>
    have hnumbers : a.numbers (r :: rs) =
        ((a.serve r).1.head?.map HiddenName.index).toList ++ (a.serve r).2.numbers rs := by
      rw [numbers, answers, List.filterMap_cons]
      cases (a.serve r).1.head? <;> rfl
    rw [after, ih, next_serve, hnumbers, List.getLast?_append]
    cases (a.serve r).1.head? <;> cases ((a.serve r).2.numbers rs).getLast? <;> rfl

/-- In use are the names that were in use before and those of the history. -/
theorem mem_reserved_after :
    s ∈ (a.after rs).reserved ↔ s ∈ a.reserved ∨ s ∈ a.mentioned rs := by
  induction rs generalizing a with
  | nil => simp [after, mentioned, answers]
  | cons r rs ih =>
    rw [after, ih, mem_reserved_serve]
    simp only [mentioned, answers, List.flatMap_cons, List.flatten_cons, List.map_append, List.mem_append]
    tauto

theorem notMem_reserved_of_mem_answers (h : n ∈ (a.answers rs).flatten) : n.render ∉ a.reserved := by
  induction rs generalizing a with
  | nil => simp [answers] at h
  | cons r rs ih =>
    rw [answers, List.flatten_cons, List.mem_append] at h
    obtain h | h := h
    · exact notMem_reserved_of_mem_serve h
    · exact fun hused => ih h (mem_reserved_serve.2 (.inl hused))

theorem nodup_answers (a : Allocator) (rs : List Request) :
    ((a.answers rs).flatten.map HiddenName.render).Nodup := by
  induction rs generalizing a with
  | nil => exact List.nodup_nil
  | cons r rs ih =>
    rw [answers, List.flatten_cons, List.map_append, List.nodup_append]
    refine ⟨a.nodup_serve r, ih _, ?_⟩
    -- what was handed out is in use when the later requests are served
    rintro s hs t ht rfl
    obtain ⟨n, hn, rfl⟩ := List.mem_map.1 ht
    exact notMem_reserved_of_mem_answers hn (mem_reserved_serve.2 (.inr (.inr hs)))

theorem next_le_of_mem_numbers (h : i ∈ a.numbers rs) :
    a.next ≤ i := by
  induction rs generalizing a with
  | nil => simp [numbers, answers] at h
  | cons r rs ih =>
    rw [numbers, answers, List.mem_filterMap] at h
    obtain ⟨names, hnames, hi⟩ := h
    obtain rfl | hlater := List.mem_cons.1 hnames
    · obtain ⟨n, hn, rfl⟩ := Option.map_eq_some_iff.1 hi
      exact (lt_next_serve (List.mem_of_head? hn)).1
    · exact (a.next_le_next_serve r).trans (ih (List.mem_filterMap.2 ⟨names, hlater, hi⟩))

theorem pairwise_numbers (a : Allocator) (rs : List Request) : (a.numbers rs).Pairwise (· < ·) := by
  induction rs generalizing a with
  | nil => exact .nil
  | cons r rs ih =>
    rw [numbers, answers, List.filterMap_cons]
    split
    · exact ih _
    · rename_i i hi
      obtain ⟨n, hn, rfl⟩ := Option.map_eq_some_iff.1 hi
      refine .cons (fun j hj => ?_) (ih _)
      exact (lt_next_serve (List.mem_of_head? hn)).2.trans_le (next_le_of_mem_numbers hj)

/-- A request for names is answered after every history: the search for a number ends, at the least number from the
counter on for which none of the names is mentioned in the history. So no name is handed out twice, and the numbers
grow. -/
theorem serve_after_isLeast {stem : String} (hs : Text.isIdentifier stem = true) (hk : Text.isKeyword stem = false)
    (start : Int) (rs : List Request) :
    ∃ a, make stem start = .ok a ∧
      (∀ r, r.roles ≠ [] → ∃ i,
        (a.after rs).Finds r.roles (a.after rs).next i ∧
        ((a.after rs).serve r).1 = r.roles.map (HiddenName.mk stem · i) ∧
        IsLeast {j | ((a.numbers rs).getLast?.map (· + 1)).getD start ≤ j ∧
          ∀ role ∈ r.roles, (HiddenName.mk stem role j).render ∉ a.mentioned rs} i) ∧
      (∀ r, ∀ n ∈ ((a.after rs).serve r).1, n.render ∉ a.mentioned rs) ∧
      ((a.answers rs).flatten.map HiddenName.render).Nodup ∧
      (a.numbers rs).Pairwise (· < ·) := by
  refine ⟨⟨stem, start, []⟩, by simp [make, hs, hk], ?_, ?_, nodup_answers _ rs, pairwise_numbers _ rs⟩
  all_goals
    generalize ha : Allocator.mk stem start [] = a
    have hstem : (a.after rs).stem = stem := by rw [stem_after, ← ha]
    have hused (s : String) : s ∈ (a.after rs).reserved ↔ s ∈ a.mentioned rs := by
      rw [mem_reserved_after, ← ha]
      simp
  · intro r _
    refine ⟨((a.after rs).draw r.roles).1, finds_draw _ _, by rw [serve_fst, ← hstem]; rfl, ?_⟩
    have hleast := ((a.after rs).finds_draw r.roles).isLeast
    simp only [isFree_iff, hused, next_after, name, hstem] at hleast
    rwa [show a.next = start by rw [← ha]] at hleast
  · intro r n hn
    exact fun hmem => notMem_reserved_of_mem_serve hn ((hused _).2 hmem)

/-- A role with a digit in it: the name of number 1 is put aside, and the next number is taken. -/
theorem serve_after_isLeast_digit :
    Text.isIdentifier "_lm" = true ∧ Text.isKeyword "_lm" = false ∧ ∃ a, make "_lm" 0 = .ok a ∧
      ((a.after [.reserve ["_lm_a_0_1"], .fresh "a"]).serve (.fresh "a_0")).1 = [⟨"_lm", "a_0", 2⟩] ∧
      IsLeast {j | 1 ≤ j ∧ ∀ role ∈ ["a_0"], (HiddenName.mk "_lm" role j).render ∉ ["_lm_a_0_1", "_lm_a_0"]} 2 := by
  have hs : Text.isIdentifier "_lm" = true := by decide +kernel
  have hk : Text.isKeyword "_lm" = false := by decide +kernel
  obtain ⟨a, hmake, hserve, -⟩ := serve_after_isLeast hs hk 0 [.reserve ["_lm_a_0_1"], .fresh "a"]
  refine ⟨hs, hk, a, hmake, ?_⟩
  obtain rfl : Allocator.mk "_lm" 0 [] = a := by simpa [make, hs, hk] using hmake
  obtain ⟨i, -, hnames, hleast⟩ := hserve (.fresh "a_0") (by decide)
  have hdrawn : (((Allocator.mk "_lm" 0 []).after [.reserve ["_lm_a_0_1"], .fresh "a"]).serve (.fresh "a_0")).1 =
      [⟨"_lm", "a_0", 2⟩] := by decide +kernel
  obtain rfl : 2 = i := by simpa [Request.roles] using hdrawn.symm.trans hnames
  exact ⟨hdrawn, hleast⟩

end Allocator

end DoBlocks
