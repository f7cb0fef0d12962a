import ApexDB.KvStore
import ApexDB.Proof.Heap

/-!
# The index of deadlines

The heap and the `heap_idx` fields point at each other (`Timers`), and this is what makes a
deadline a function of the entry (`deadlineAt`). `entry_set_ttl` is the only writer: it keeps
the two in step and changes one deadline, whatever positions the sifting moved
(`entrySetTtl_spec`).

The field of an entry says where its item is, or that it has none; the item has the deadline and
a pointer to the field. A field that is out of date would make the next `expire` of that key
overwrite the deadline of another one.
-/

set_option autoImplicit false

namespace ApexDB

open Lib Heap

/-- **The heap is in order, and items and fields point at each other.** -/
structure Timers (heap : List HeapItem) (refs : HeapRefs) : Prop where
  ordered : Ordered HeapItem.val heap
  indexed : ∀ (i : Nat) (x : HeapItem), heap[i]? = some x → refs x.ref = some i
  own : ∀ (e : EntryId) (i : Nat), refs e = some i → ∃ x, heap[i]? = some x ∧ x.ref = e

/-- The deadline of an entry: the value of the item at the position that its field has. -/
def deadlineAt (heap : List HeapItem) (refs : HeapRefs) (e : EntryId) : Option Nat :=
  (refs e).bind fun i => heap[i]?.map HeapItem.val

variable {heap heap₀ : List HeapItem} {refs refs₀ : HeapRefs} {e : EntryId}

theorem timers_empty : Timers [] ⟨fun _ => none⟩ where
  ordered := fun i _ x y hx _ => by simp at hx
  indexed := fun i x hx => by simp at hx
  own := fun e i h => by cases h

theorem Timers.nodup (h : Timers heap refs) : (heap.map HeapItem.ref).Nodup := by
  rw [List.nodup_iff_getElem?_ne_getElem?]
  intro i j hij hj heq
  rw [List.length_map] at hj
  rw [List.getElem?_map, List.getElem?_map, List.getElem?_eq_getElem hj,
    List.getElem?_eq_getElem (hij.trans hj), Option.map_some, Option.map_some,
    Option.some_inj] at heq
  have hi := h.indexed i _ (List.getElem?_eq_getElem (hij.trans hj))
  rw [heq, h.indexed j _ (List.getElem?_eq_getElem hj)] at hi
  exact absurd (Option.some.inj hi) (by omega)

theorem Timers.item (h : Timers heap refs) {i : Nat} (hi : refs e = some i) :
    ∃ v, heap[i]? = some ⟨v, e⟩ := by
  obtain ⟨⟨v, f⟩, hx, hf⟩ := h.own e i hi
  cases hf
  exact ⟨v, hx⟩

theorem Timers.deadline_iff (h : Timers heap refs) {v : Nat} :
    deadlineAt heap refs e = some v ↔ ⟨v, e⟩ ∈ heap := by
  constructor
  · intro hd
    obtain ⟨i, hi, hv⟩ := Option.bind_eq_some_iff.mp hd
    obtain ⟨w, hx⟩ := h.item hi
    rw [hx, Option.map_some] at hv
    cases hv
    exact List.mem_of_getElem? hx
  · intro hmem
    obtain ⟨i, hi⟩ := List.mem_iff_getElem?.mp hmem
    rw [deadlineAt, h.indexed i _ hi, Option.bind_some, hi]
    rfl

theorem Timers.deadline_none (h : Timers heap refs) : deadlineAt heap refs e = none ↔ refs e = none := by
  constructor
  · intro hd
    cases hr : refs e with
    | none => rfl
    | some i =>
      obtain ⟨v, hx⟩ := h.item hr
      rw [deadlineAt, hr, Option.bind_some, hx] at hd
      cases hd
  · intro hr
    rw [deadlineAt, hr]
    rfl

theorem Timers.deadline_eq (h : Timers heap refs) {d : EntryId → Option Nat}
    (hd : ∀ (f : EntryId) (v : Nat), ⟨v, f⟩ ∈ heap ↔ d f = some v) : deadlineAt heap refs = d := by
  funext f
  apply Option.ext
  intro v
  rw [h.deadline_iff, hd]

/-- The root is due first, so that looking at the root is enough to know that nothing is due. -/
theorem Timers.head_le (h : Timers heap refs) {x : HeapItem} (hx : heap.head? = some x) {v : Nat}
    (hv : deadlineAt heap refs e = some v) : x.val ≤ v := by
  obtain ⟨i, hi⟩ := List.mem_iff_getElem?.mp (h.deadline_iff.mp hv)
  rw [List.head?_eq_getElem?] at hx
  exact h.ordered.head_le hx i _ hi

/-! ## 1. Removal

The last item fills the hole, is told its new position by the repair, and the field of the
removed entry is cleared afterwards. If the hole was the last position there is nothing to fill
it with, and nothing to repair.
-/

/-- Filling a hole with the last item, which is then dropped. -/
theorem set_dropLast_append {v : List HeapItem} {back : HeapItem} (hb : v.getLast? = some back)
    (pos : Nat) : (v.set pos back).dropLast ++ [back] = v.set pos back := by
  obtain ⟨init, rfl⟩ : ∃ init, v = init ++ [back] :=
    ⟨v.dropLast, (List.dropLast_append_getLast? back hb).symm⟩
  apply List.dropLast_append_getLast?
  rw [List.set_append]
  split
  · simp
  · cases pos - init.length <;> simp

theorem perm_set_dropLast {v : List HeapItem} {back x : HeapItem} {pos : Nat}
    (hb : v.getLast? = some back) (hx : v[pos]? = some x) :
    v.Perm (x :: (v.set pos back).dropLast) := by
  have h := cons_set_perm hx back
  rw [← set_dropLast_append hb pos] at h
  have h' : (back :: (x :: (v.set pos back).dropLast)).Perm (back :: v) :=
    (List.perm_append_singleton back (x :: (v.set pos back).dropLast)).symm.trans h
  exact h'.cons_inv.symm

/-- A repaired heap, once the field of the removed entry is cleared. -/
theorem Repaired.timers_clear {a : List HeapItem} {x : HeapItem} (h₀ : Timers heap₀ refs₀)
    (hr : Repaired a refs₀ heap refs) (hp : heap₀.Perm (x :: a)) :
    Timers heap (refs.set x.ref none) := by
  have hn := (hp.map HeapItem.ref).nodup_iff.mp h₀.nodup
  rw [List.map_cons, List.nodup_cons] at hn
  have hmem : ∀ y ∈ heap, y.ref ≠ x.ref := fun y hy hxy =>
    hn.1 (hxy ▸ List.mem_map_of_mem (hr.items.mem_iff.mp hy))
  refine ⟨hr.ordered, fun i y hy => ?_, fun f i hf => ?_⟩
  · rw [HeapRefs.set_of_ne _ _ (hmem y (List.mem_of_getElem? hy))]
    exact hr.indexed i y hy
  · by_cases hfx : f = x.ref
    · rw [hfx, HeapRefs.set_self] at hf
      cases hf
    · rw [HeapRefs.set_of_ne _ _ hfx] at hf
      by_cases hin : ∃ y ∈ a, y.ref = f
      · obtain ⟨y, hy, rfl⟩ := hin
        obtain ⟨j, hj⟩ := List.mem_iff_getElem?.mp (hr.items.mem_iff.mpr hy)
        rw [hr.indexed j y hj] at hf
        cases hf
        exact ⟨y, hj, rfl⟩
      · -- an entry without an item had no position before
        rw [hr.others f fun y hy hyf => hin ⟨y, hy, hyf⟩] at hf
        obtain ⟨y, hy, hyf⟩ := h₀.own f i hf
        rcases List.mem_cons.mp (hp.mem_iff.mp (List.mem_of_getElem? hy)) with rfl | hya
        · exact absurd hyf.symm hfx
        · exact absurd ⟨y, hya, hyf⟩ hin

/-- **`heap_delete` takes one item out.** Items and fields agree again once the caller has
cleared the field of the entry. -/
theorem heapDelete_spec {st : Store} {pos : Nat} (h : Timers st.heap st.refs)
    (hpos : st.refs e = some pos) :
    ∃ heap refs v, heapDelete st pos = some { st with heap := heap, refs := refs } ∧
      Timers heap (refs.set e none) ∧ st.heap.Perm (⟨v, e⟩ :: heap) := by
  obtain ⟨v, hx⟩ := h.item hpos
  have hlt := (List.getElem?_eq_some_iff.mp hx).1
  obtain ⟨back, hb⟩ : ∃ back, st.heap.getLast? = some back :=
    ⟨_, List.getLast?_eq_some_getLast (List.ne_nil_of_length_pos (by omega))⟩
  have hp := perm_set_dropLast hb hx
  have hn := (hp.map HeapItem.ref).nodup_iff.mp h.nodup
  rw [List.map_cons, List.nodup_cons] at hn
  have hmis := (Edited.remove pos hb).misplaced h.ordered
  have hrefs : ∀ (i : Nat) (x : HeapItem), i ≠ pos →
      (st.heap.set pos back).dropLast[i]? = some x → st.refs x.ref = some i :=
    fun i x hi hxi => h.indexed i x ((Edited.remove pos hb).getElem? hi hxi)
  unfold heapDelete
  simp only [hb, Option.bind_eq_bind, Option.bind_some, if_neg (Nat.not_le.mpr hlt)]
  by_cases hpl : pos < (st.heap.set pos back).dropLast.length
  · obtain ⟨heap, refs, hrun, hr⟩ := heapUpdate_spec hmis hpl hn.2 hrefs
    refine ⟨heap, refs, v, ?_, hr.timers_clear h hp, hp.trans (hr.items.symm.cons _)⟩
    rw [if_pos hpl, hrun]
    rfl
  · -- the hole was the last position, and nothing is out of place
    have hr : Repaired (st.heap.set pos back).dropLast st.refs
        (st.heap.set pos back).dropLast st.refs := by
      refine ⟨.refl _, hmis.ordered_of_length_le (Nat.le_of_not_lt hpl), fun i x hxi => ?_,
        fun _ _ => rfl⟩
      have := (List.getElem?_eq_some_iff.mp hxi).1
      exact hrefs i x (by omega) hxi
    refine ⟨_, st.refs, v, ?_, hr.timers_clear h hp, hp⟩
    rw [if_neg hpl]
    rfl

/-! ## 2. Insertion and refresh

An entry has at most one item: a first deadline is appended, and a later one is written over the
first. In both cases one position is out of order, and `Timers.update` repairs it.
-/

/-- A repaired heap that accounts for every field. -/
theorem Repaired.timers {a : List HeapItem} (hr : Repaired a refs₀ heap refs)
    (hown : ∀ (f : EntryId) (i : Nat), refs₀ f = some i → ∃ y ∈ a, y.ref = f) :
    Timers heap refs := by
  refine ⟨hr.ordered, hr.indexed, fun f i hf => ?_⟩
  obtain ⟨y, hy, rfl⟩ : ∃ y ∈ a, y.ref = f := by
    by_contra hin
    rw [hr.others f fun y hy hyf => hin ⟨y, hy, hyf⟩] at hf
    exact hin (hown f i hf)
  obtain ⟨j, hj⟩ := List.mem_iff_getElem?.mp (hr.items.mem_iff.mpr hy)
  rw [hr.indexed j y hj] at hf
  cases hf
  exact ⟨y, hj, rfl⟩

/-- The heap differs from an indexed one by the item of `e`, which is repaired. -/
theorem Timers.update (h : Timers heap₀ refs₀) {v : Nat} {a : List HeapItem} {pos : Nat}
    (he : Edited heap₀ a pos) (hlt : pos < a.length) (hn : (a.map HeapItem.ref).Nodup)
    (hmem : ∀ (w : Nat) (f : EntryId), ⟨w, f⟩ ∈ a ↔ if f = e then w = v else ⟨w, f⟩ ∈ heap₀) :
    ∃ heap refs, heapUpdate a refs₀ pos a.length = some (heap, refs) ∧ Timers heap refs ∧
      deadlineAt heap refs = Function.update (deadlineAt heap₀ refs₀) e (some v) := by
  obtain ⟨heap, refs, hrun, hr⟩ := heapUpdate_spec (he.misplaced h.ordered) hlt hn
    fun i x hi hx => h.indexed i x (he.getElem? hi hx)
  have ht : Timers heap refs := by
    refine hr.timers fun f i hf => ?_
    by_cases hfe : f = e
    · exact ⟨⟨v, f⟩, by rw [hmem, if_pos hfe], rfl⟩
    · obtain ⟨w, hx⟩ := h.item hf
      exact ⟨⟨w, f⟩, by rw [hmem, if_neg hfe]; exact List.mem_of_getElem? hx, rfl⟩
  refine ⟨heap, refs, hrun, ht, ht.deadline_eq fun f w => ?_⟩
  rw [hr.items.mem_iff, hmem, Function.update_apply]
  split
  · rw [Option.some_inj, eq_comm]
  · rw [h.deadline_iff]

theorem Timers.push (h : Timers heap₀ refs₀) (he : refs₀ e = none) (v : Nat) :
    ∃ heap refs, heapUpdate (heap₀ ++ [⟨v, e⟩]) refs₀ heap₀.length
        (heap₀ ++ [HeapItem.mk v e]).length = some (heap, refs) ∧ Timers heap refs ∧
      deadlineAt heap refs = Function.update (deadlineAt heap₀ refs₀) e (some v) := by
  have hfree : ∀ x ∈ heap₀, x.ref ≠ e := by
    intro x hx hxe
    obtain ⟨i, hi⟩ := List.mem_iff_getElem?.mp hx
    rw [← hxe, h.indexed i x hi] at he
    cases he
  refine h.update (.append ⟨v, e⟩) (by simp) ?_ fun w f => ?_
  · rw [List.map_append, List.nodup_append]
    refine ⟨h.nodup, by simp, fun a ha b hb => ?_⟩
    obtain ⟨x, hx, rfl⟩ := List.mem_map.mp ha
    rw [List.map_singleton, List.mem_singleton] at hb
    exact hb ▸ hfree x hx
  · rw [List.mem_append, List.mem_singleton, HeapItem.mk.injEq]
    split
    · rename_i hfe
      subst hfe
      exact ⟨fun hw => hw.elim (fun hw => absurd rfl (hfree _ hw)) fun hw => hw.1,
        fun hw => .inr ⟨hw, rfl⟩⟩
    · rename_i hfe
      exact ⟨fun hw => hw.elim id fun hw => absurd hw.2 hfe, .inl⟩

theorem Timers.refresh (h : Timers heap₀ refs₀) {pos : Nat} (he : refs₀ e = some pos) (v : Nat) :
    ∃ heap refs, heapUpdate (heap₀.set pos ⟨v, e⟩) refs₀ pos (heap₀.set pos ⟨v, e⟩).length =
        some (heap, refs) ∧ Timers heap refs ∧
      deadlineAt heap refs = Function.update (deadlineAt heap₀ refs₀) e (some v) := by
  obtain ⟨u, hx⟩ := h.item he
  have hlt := (List.getElem?_eq_some_iff.mp hx).1
  refine h.update (.replace pos ⟨v, e⟩) (by simpa using hlt) ?_ fun w f => ?_
  · have hxr : (heap₀.map HeapItem.ref)[pos]? = some e := by rw [List.getElem?_map, hx]; rfl
    obtain ⟨hl, hxr⟩ := List.getElem?_eq_some_iff.mp hxr
    rw [List.map_set, ← hxr, List.set_getElem_self hl]
    exact h.nodup
  · split
    · rename_i hfe
      subst hfe
      refine ⟨fun hw => ?_, fun hw => hw ▸ List.mem_of_getElem? (List.getElem?_set_self hlt)⟩
      obtain ⟨j, hj⟩ := List.mem_iff_getElem?.mp hw
      by_cases hjp : j = pos
      · rw [hjp, List.getElem?_set_self hlt] at hj
        cases hj
        rfl
      · rw [List.getElem?_set_ne fun hpj => hjp hpj.symm] at hj
        have hpj := h.indexed j _ hj
        rw [he] at hpj
        exact absurd (Option.some.inj hpj).symm hjp
    · rename_i hfe
      have hmem := (cons_set_perm hx ⟨v, e⟩).mem_iff (a := (⟨w, f⟩ : HeapItem))
      simp only [List.mem_cons, HeapItem.mk.injEq, hfe, and_false, false_or] at hmem
      exact hmem

/-- **`heap_upsert` gives an entry one item**, a new one at the end or its old one in place, and
repairs the order from there. -/
theorem heapUpsert_spec {st : Store} (h : Timers st.heap st.refs) (e : EntryId) (v : Nat) :
    ∃ heap refs, heapUpsert st (st.refs e) ⟨v, e⟩ = some { st with heap := heap, refs := refs } ∧
      Timers heap refs ∧ deadlineAt heap refs =
        Function.update (deadlineAt st.heap st.refs) e (some v) := by
  unfold heapUpsert
  cases hr : st.refs e with
  | none =>
    obtain ⟨heap, refs, hrun, ht, hd⟩ := h.push hr v
    refine ⟨heap, refs, ?_, ht, hd⟩
    simp only [hrun]
    rfl
  | some pos =>
    obtain ⟨heap, refs, hrun, ht, hd⟩ := h.refresh hr v
    refine ⟨heap, refs, ?_, ht, hd⟩
    obtain ⟨u, hx⟩ := h.item hr
    simp only [if_pos (List.getElem?_eq_some_iff.mp hx).1, hrun]
    rfl

/-! ## 3. `entry_set_ttl`

A negative number of milliseconds clears the deadline, and any other one sets it. The sum with
the clock is that of `uint64_t`.
-/

/-- The deadline `entry_set_ttl` gives. -/
def newDeadline (clk : Nat) (ttl : Int) : Option Nat :=
  if ttl < 0 then none else some ((clk + ttl.toNat) % 2 ^ 64)

/-- **`entry_set_ttl` sets or clears one deadline**, and leaves those of all other entries,
whatever positions the sifting has moved. -/
theorem entrySetTtl_spec {st : Store} (h : Timers st.heap st.refs) (clk : Nat) (e : EntryId)
    (ttl : Int) :
    ∃ heap refs, entrySetTtl clk st e ttl = some { st with heap := heap, refs := refs } ∧
      Timers heap refs ∧ deadlineAt heap refs =
        Function.update (deadlineAt st.heap st.refs) e (newDeadline clk ttl) := by
  unfold entrySetTtl newDeadline
  by_cases hneg : ttl < 0
  · rw [if_pos hneg, if_neg (Int.not_le.mpr hneg)]
    cases hr : st.refs e with
    | none =>
      refine ⟨st.heap, st.refs, by simp, h, ?_⟩
      rw [← h.deadline_none.mpr hr, Function.update_eq_self]
    | some pos =>
      obtain ⟨heap, refs, v, hrun, ht, hp⟩ := heapDelete_spec h hr
      refine ⟨heap, refs.set e none, ?_, ht, ht.deadline_eq fun f w => ?_⟩
      · simp [hneg, hrun]
      · have hn := (hp.map HeapItem.ref).nodup_iff.mp h.nodup
        rw [List.map_cons, List.nodup_cons] at hn
        rw [Function.update_apply]
        split
        · rename_i hfe
          subst hfe
          exact ⟨fun hw => absurd (List.mem_map_of_mem hw) hn.1, fun hw => by cases hw⟩
        · rename_i hfe
          rw [h.deadline_iff, hp.mem_iff, List.mem_cons, HeapItem.mk.injEq]
          exact ⟨.inr, fun hw => hw.elim (fun hw => absurd hw.2 hfe) id⟩
  · rw [if_neg fun hc => hneg hc.1, if_pos (Int.not_lt.mp hneg), if_neg hneg]
    exact heapUpsert_spec h e _

end ApexDB
