import MPStuBS.Queue

/-! Several intrusive queues over the same next pointers. As long as no item is in
two of them, an operation on one queue leaves the lists of all others alone. -/
namespace MPStuBS

variable {ι T : Type}

/-- Queue `i` represents `lists i`, and no item is in two lists. -/
structure Family (links : Links T) (queues : ι → Queue T) (lists : ι → List T) : Prop where
  rep : ∀ i, (queues i).Rep links (lists i)
  apart : ∀ i j item, item ∈ lists i → item ∈ lists j → i = j

namespace Family

variable {links links' : Links T} {queues : ι → Queue T} {lists : ι → List T}

theorem new (links : Links T) : Family links (fun _ : ι => Queue.new) fun _ => [] where
  rep _ := Queue.rep_new links
  apart _ _ _ member := by simp at member

theorem nodup (family : Family links queues lists) (i : ι) : (lists i).Nodup := (family.rep i).nodup

variable [DecidableEq ι] {i : ι} {q : Queue T} {nodes : List T}

/-- A new representation of one queue extends to the family if it left the pointers
of all other lists alone and took no item from them. -/
theorem update (family : Family links queues lists) (rep : q.Rep links' nodes)
    (frame : ∀ j, j ≠ i → ∀ x ∈ lists j, links' x = links x)
    (fresh : ∀ x ∈ nodes, x ∈ lists i ∨ ∀ j, x ∉ lists j) :
    Family links' (Function.update queues i q) (Function.update lists i nodes) := by
  have outside (j : ι) (h : j ≠ i) (x : T) (here : x ∈ nodes) (there : x ∈ lists j) : False := by
    rcases fresh x here with member | absent
    · exact h (family.apart j i x there member)
    · exact absent j there
  constructor
  · intro j
    by_cases h : j = i
    · subst h; simpa using rep
    · simpa [h] using (family.rep j).frame (frame j h)
  · intro j k x
    by_cases hj : j = i <;> by_cases hk : k = i
    · simp [hj, hk]
    · subst hj; simp only [Function.update_self, Function.update_of_ne hk]
      intro here there; exact (outside k hk x here there).elim
    · subst hk; simp only [Function.update_self, Function.update_of_ne hj]
      intro there here; exact (outside j hj x here there).elim
    · simp only [Function.update_of_ne hj, Function.update_of_ne hk]
      exact family.apart j k x

/-- Abandoning a queue and starting over with an empty one. -/
theorem renew (family : Family links queues lists) :
    Family links (Function.update queues i .new) (Function.update lists i []) := by
  apply family.update (Queue.rep_new links)
  · intro j _ x _; rfl
  · intro x member; simp at member

variable [DecidableEq T] {item : T}

theorem enqueue (family : Family links queues lists) (fresh : ∀ j, item ∉ lists j) :
    Family ((queues i).enqueue links item).2
      (Function.update queues i ((queues i).enqueue links item).1)
      (Function.update lists i (lists i ++ [item])) := by
  apply family.update (Queue.enqueue_rep (family.rep i) (fresh i))
  · intro j h x member
    apply Queue.enqueue_links (family.rep i)
    · intro here; exact h (family.apart j i x member here)
    · rintro rfl; exact fresh j member
  · intro x member
    rcases List.mem_append.mp member with here | new
    · exact .inl here
    · obtain rfl := List.mem_singleton.mp new
      exact .inr fresh

theorem dequeue (family : Family links queues lists) :
    ∃ after links', (queues i).dequeue links = ((lists i).head?, after, links') ∧
      Family links' (Function.update queues i after) (Function.update lists i (lists i).tail) := by
  have rep := family.rep i
  cases h : lists i with
  | nil =>
    rw [h] at rep
    refine ⟨queues i, links, Queue.dequeue_nil rep, ?_⟩
    rw [List.tail_nil, ← h]
    simpa using family
  | cons item rest =>
    rw [h] at rep
    obtain ⟨after, eq, rep⟩ := Queue.dequeue_cons rep
    refine ⟨after, _, eq, family.update rep ?_ ?_⟩
    · intro j distinct x member
      apply Function.update_of_ne
      rintro rfl
      exact distinct (family.apart j i x member (by simp [h]))
    · intro x member
      exact .inl (by simp_all)

theorem remove (family : Family links queues lists) {fuel : Nat} (enough : (lists i).length < fuel)
    (item : T) : ∃ after links', (queues i).remove fuel links item =
        some (if item ∈ lists i then some item else none, after, links') ∧
      Family links' (Function.update queues i after)
        (Function.update lists i ((lists i).erase item)) := by
  by_cases member : item ∈ lists i
  · obtain ⟨after, links', eq, rep, frame⟩ := Queue.remove_member (family.rep i) enough member
    refine ⟨after, links', by rw [eq, if_pos member], family.update rep ?_ ?_⟩
    · intro j distinct x there
      apply frame
      intro here; exact distinct (family.apart j i x there here)
    · intro x here
      exact .inl (List.mem_of_mem_erase here)
  · refine ⟨queues i, links, ?_, ?_⟩
    · rw [if_neg member]; exact Queue.remove_absent (family.rep i) enough member
    · rw [List.erase_of_not_mem member]; simpa using family

theorem insertFirst (family : Family links queues lists) (fresh : ∀ j, item ∉ lists j) :
    Family ((queues i).insertFirst links item).2
      (Function.update queues i ((queues i).insertFirst links item).1)
      (Function.update lists i (item :: lists i)) := by
  apply family.update (Queue.insertFirst_rep (family.rep i) (fresh i))
  · intro j h x member
    apply Function.update_of_ne
    rintro rfl
    exact fresh j member
  · intro x member
    rcases List.mem_cons.mp member with rfl | here
    · exact .inr fresh
    · exact .inl here

theorem insertAfter (family : Family links queues lists) {before after : List T} {old : T}
    (place : lists i = before ++ old :: after) (fresh : ∀ j, item ∉ lists j) :
    Family ((queues i).insertAfter links old item).2
      (Function.update queues i ((queues i).insertAfter links old item).1)
      (Function.update lists i (before ++ old :: item :: after)) := by
  apply family.update (Queue.insertAfter_rep (place ▸ family.rep i) (place ▸ fresh i))
  · intro j h x member
    have notOld : x ≠ old := by
      rintro rfl
      exact h (family.apart j i x member (by simp [place]))
    have notNew : x ≠ item := by
      rintro rfl
      exact fresh j member
    exact (Function.update_of_ne notOld _ _).trans (Function.update_of_ne notNew _ _)
  · intro x member
    rw [place]
    simp only [List.mem_append, List.mem_cons] at member ⊢
    rcases member with inside | rfl | rfl | inside
    · exact .inl (.inl inside)
    · exact .inl (.inr (.inl rfl))
    · exact .inr fresh
    · exact .inl (.inr (.inr inside))

end Family
end MPStuBS
