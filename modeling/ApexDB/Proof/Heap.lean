import ApexDB.Lib.HeapOrder
import ApexDB.Heap

/-!
# `heap_update` repairs an indexed heap

While an item is in hand the array has a stale copy of some item at the position it left, so the
order, the items and the back references are all said of the array *with the item in hand put at
that position*. Seen so, one turn of either loop is a swap, and the library knows what a swap
does to the order; what is added here is that every item that moved has been told where it is.

The back references are stores through pointers that the items carry. Two items that pointed at
one field would overwrite each other's position, so that no two do is a hypothesis everywhere
(`Nodup`), and a field that no item points at is shown to be left alone.
-/

set_option autoImplicit false

namespace ApexDB

open Lib Lib.Heap

theorem heapParent_eq (i : Nat) : heapParent i = Heap.parent i := rfl

/-- The state of either loop, on the array `v₀` with the fields `refs₀` at the start: everything
but the item in hand is where its field says, and no other field was touched. -/
structure Sifting (v₀ : List HeapItem) (refs₀ : HeapRefs) (t : HeapItem)
    (s : List HeapItem × HeapRefs × Nat) : Prop where
  lt : s.2.2 < s.1.length
  items : (s.1.set s.2.2 t).Perm v₀
  refs : ∀ (i : Nat) (x : HeapItem), i ≠ s.2.2 → s.1[i]? = some x → s.2.1 x.ref = some i
  others : ∀ e, (∀ x ∈ v₀, x.ref ≠ e) → s.2.1 e = refs₀ e

/-- **What a repair leaves**: the same items in order, each of which has been told where it is,
and every other field as it was. -/
structure Repaired (v₀ : List HeapItem) (refs₀ : HeapRefs) (v : List HeapItem) (refs : HeapRefs) :
    Prop where
  items : v.Perm v₀
  ordered : Ordered HeapItem.val v
  indexed : ∀ (i : Nat) (x : HeapItem), v[i]? = some x → refs x.ref = some i
  others : ∀ e, (∀ x ∈ v₀, x.ref ≠ e) → refs e = refs₀ e

variable {v₀ a : List HeapItem} {refs₀ refs : HeapRefs} {t p : HeapItem} {pos j : Nat}

theorem HeapRefs.set_self (refs : HeapRefs) (e : EntryId) (i : Option Nat) :
    (refs.set e i) e = i := by
  simp [HeapRefs.set]

theorem HeapRefs.set_of_ne (refs : HeapRefs) {e f : EntryId} (i : Option Nat) (h : f ≠ e) :
    (refs.set e i) f = refs f := by
  simp [HeapRefs.set, h]

theorem ref_ne_of_ne {v : List HeapItem} (hn : (v.map HeapItem.ref).Nodup) {i : Nat} {x y : HeapItem}
    (hx : v[i]? = some x) (hy : v[j]? = some y) (hij : i ≠ j) : x.ref ≠ y.ref := by
  intro heq
  have hlt := (List.getElem?_eq_some_iff.mp hx).1
  refine hij ((List.getElem?_inj (by simpa using hlt) hn).mp ?_)
  rw [List.getElem?_map, List.getElem?_map, hx, hy, Option.map_some, Option.map_some, heq]

theorem Sifting.self (h : Sifting v₀ refs₀ t (a, refs, pos)) : (a.set pos t)[pos]? = some t := by
  have hlt := h.lt
  simp only at hlt
  simp [hlt]

theorem Sifting.nodup (h : Sifting v₀ refs₀ t (a, refs, pos)) (hn : (v₀.map HeapItem.ref).Nodup) :
    ((a.set pos t).map HeapItem.ref).Nodup :=
  (h.items.map _).nodup_iff.mpr hn

/-- **One move**: the item at `j` goes to the position left, and the hand to `j`. The item that
went has been told, and the field of the one in hand is stale until it is put down. -/
theorem Sifting.move (h : Sifting v₀ refs₀ t (a, refs, pos)) (hn : (v₀.map HeapItem.ref).Nodup)
    (hj : a[j]? = some p) (hne : j ≠ pos) :
    ∃ a' refs', heapPlace a refs pos p = some (a', refs') ∧ Sifting v₀ refs₀ t (a', refs', j) ∧
      a'.set j t = Heap.swap (a.set pos t) pos j t p ∧ a'.length = a.length := by
  have hlt : pos < a.length := h.lt
  have hjv : (a.set pos t)[j]? = some p := by rw [List.getElem?_set_ne fun h => hne h.symm, hj]
  have hswap : (a.set pos p).set j t = Heap.swap (a.set pos t) pos j t p := by
    unfold Heap.swap
    rw [List.set_set]
  have hpmem : p ∈ v₀ := h.items.mem_iff.mp (List.mem_of_getElem? hjv)
  refine ⟨a.set pos p, refs.set p.ref (some pos), if_pos hlt, ⟨?_, ?_, fun i x hi hx => ?_,
    fun e he => ?_⟩, hswap, List.length_set⟩
  · simpa using (List.getElem?_eq_some_iff.mp hj).1
  · show ((a.set pos p).set j t).Perm v₀
    rw [hswap]
    exact (swap_perm (fun h => hne h.symm) h.self hjv).trans h.items
  · by_cases hip : i = pos
    · subst hip
      have hx' : x = p := by simpa [hlt] using hx.symm
      rw [hx', HeapRefs.set_self]
    · have hxa : a[i]? = some x := by
        simp only at hx
        rwa [List.getElem?_set_ne fun h => hip h.symm] at hx
      have hxv : (a.set pos t)[i]? = some x := by rw [List.getElem?_set_ne fun h => hip h.symm, hxa]
      show (refs.set p.ref (some pos)) x.ref = some i
      rw [HeapRefs.set_of_ne _ _ (ref_ne_of_ne (h.nodup hn) hxv hjv hi)]
      exact h.refs i x hip hxa
  · show (refs.set p.ref (some pos)) e = refs₀ e
    rw [HeapRefs.set_of_ne _ _ fun h => he p hpmem h.symm]
    exact h.others e he

theorem Sifting.place (h : Sifting v₀ refs₀ t (a, refs, pos)) (hn : (v₀.map HeapItem.ref).Nodup)
    (hord : Ordered HeapItem.val (a.set pos t)) :
    ∃ v refs', heapPlace a refs pos t = some (v, refs') ∧ Repaired v₀ refs₀ v refs' := by
  have hlt : pos < a.length := h.lt
  have htmem : t ∈ v₀ := h.items.mem_iff.mp (List.mem_of_getElem? h.self)
  refine ⟨_, _, if_pos hlt, h.items, hord, fun i x hx => ?_, fun e he => ?_⟩
  · by_cases hip : i = pos
    · subst hip
      have hx' : x = t := by
        rw [h.self] at hx
        exact (Option.some.inj hx).symm
      rw [hx', HeapRefs.set_self]
    · rw [HeapRefs.set_of_ne _ _ (ref_ne_of_ne (h.nodup hn) hx h.self hip)]
      rw [List.getElem?_set_ne fun h => hip h.symm] at hx
      exact h.refs i x hip hx
  · rw [HeapRefs.set_of_ne _ _ fun h => he t htmem h.symm]
    exact h.others e he

/-! ## 1. `heap_up`

The item rises against its parents, and `Rising` is what the turn keeps.
-/

theorem heapUp_loop (hr : Rising HeapItem.val (a.set pos t) pos)
    (hs : Sifting v₀ refs₀ t (a, refs, pos)) (hn : (v₀.map HeapItem.ref).Nodup) :
    ∃ s, loop (heapUpTurn t) (pos + 1) (a, refs, pos) = some s ∧ Sifting v₀ refs₀ t s ∧
      Ordered HeapItem.val (s.1.set s.2.2 t) := by
  refine loop_total (heapUpTurn t)
    (fun s => Sifting v₀ refs₀ t s ∧ Rising HeapItem.val (s.1.set s.2.2 t) s.2.2) (fun s => s.2.2)
    (fun s => Sifting v₀ refs₀ t s ∧ Ordered HeapItem.val (s.1.set s.2.2 t)) ?_
    (pos + 1) (a, refs, pos) ⟨hs, hr⟩ (Nat.lt_succ_self _)
  intro ⟨a, refs, pos⟩ ⟨hs, hr⟩
  simp only at hr ⊢
  by_cases hpos : pos = 0
  · refine .inr ⟨(a, refs, pos), by simp [heapUpTurn, hpos], hs, hr.ordered fun h => ?_⟩
    exact absurd h (by omega)
  · have hpos' : 0 < pos := Nat.pos_of_ne_zero hpos
    have hpar : heapParent pos < pos := parent_lt hpos'
    have hlt : pos < a.length := hs.lt
    have hp : a[heapParent pos]? = some a[heapParent pos] :=
      List.getElem?_eq_getElem (hpar.trans hlt)
    have hpv : (a.set pos t)[Heap.parent pos]? = some a[heapParent pos] := by
      rw [← heapParent_eq, List.getElem?_set_ne (Nat.ne_of_gt hpar), hp]
    by_cases hval : t.val < a[heapParent pos].val
    · obtain ⟨a', refs', hplace, hs', hswap, -⟩ := hs.move hn hp (Nat.ne_of_lt hpar)
      refine .inl ⟨(a', refs', heapParent pos), ?_, ⟨hs', ?_⟩, hpar⟩
      · simp [heapUpTurn, hpos, hp, hval, hplace]
      · simp only
        rw [hswap]
        exact hr.swap hpos' hs.self hpv hval
    · refine .inr ⟨(a, refs, pos), by simp [heapUpTurn, hpos, hp, hval], hs, hr.ordered fun _ => ?_⟩
      intro x y hx hy
      rw [hpv] at hx
      rw [hs.self] at hy
      cases hx
      cases hy
      exact Nat.le_of_not_lt hval

/-! ## 2. `heap_down`

The item sinks to the smaller child, and `Sinking` is what the turn keeps. A child is one of two
positions, either of which may be past the end.
-/

theorem child_cases {i : Nat} (hi : 0 < i) (h : Heap.parent i = pos) :
    i = heapLeft pos ∨ i = heapRight pos := by
  unfold Heap.parent at h
  unfold heapLeft heapRight
  omega

theorem parent_left (pos : Nat) : Heap.parent (heapLeft pos) = pos := by
  unfold Heap.parent heapLeft
  omega

theorem parent_right (pos : Nat) : Heap.parent (heapRight pos) = pos := by
  unfold Heap.parent heapRight
  omega

/-- **`min_pos` is the position itself, when no child is smaller than `t`, or a smallest
child.** -/
theorem heapMinPos_spec (t : HeapItem) (a : List HeapItem) (pos : Nat) :
    (heapMinPos t a pos a.length = some pos ∧
      ∀ (i : Nat) (x : HeapItem), 0 < i → Heap.parent i = pos → a[i]? = some x → t.val ≤ x.val) ∨
    ∃ c x, heapMinPos t a pos a.length = some c ∧ 0 < c ∧ Heap.parent c = pos ∧ a[c]? = some x ∧
      x.val < t.val ∧
      ∀ (i : Nat) (y : HeapItem), 0 < i → Heap.parent i = pos → a[i]? = some y → x.val ≤ y.val := by
  have hl : 0 < heapLeft pos := by unfold heapLeft; omega
  have hr : 0 < heapRight pos := by unfold heapRight; omega
  have hlr : heapLeft pos < heapRight pos := by unfold heapLeft heapRight; omega
  -- a child past the end is no child
  have hout : ∀ {i : Nat} {y : HeapItem}, a[i]? = some y → i < a.length :=
    fun h => (List.getElem?_eq_some_iff.mp h).1
  by_cases hlen : heapLeft pos < a.length
  · have hkl : a[heapLeft pos]? = some a[heapLeft pos] := List.getElem?_eq_getElem hlen
    by_cases hrlen : heapRight pos < a.length
    · have hkr : a[heapRight pos]? = some a[heapRight pos] := List.getElem?_eq_getElem hrlen
      -- both children are there, so the smaller of the three values decides
      have hkids : ∀ (i : Nat) (y : HeapItem), 0 < i → Heap.parent i = pos → a[i]? = some y →
          y = a[heapLeft pos] ∨ y = a[heapRight pos] := by
        intro i y hi hpi hy
        rcases child_cases hi hpi with rfl | rfl
        · exact .inl (Option.some.inj (hy.symm.trans hkl))
        · exact .inr (Option.some.inj (hy.symm.trans hkr))
      by_cases h₁ : a[heapLeft pos].val < t.val
      · by_cases h₂ : a[heapRight pos].val < a[heapLeft pos].val
        · refine .inr ⟨heapRight pos, _, by simp [heapMinPos, hlen, hrlen, h₁, h₂], hr,
            parent_right pos, hkr, by omega, fun i y hi hpi hy => ?_⟩
          rcases hkids i y hi hpi hy with rfl | rfl <;> omega
        · refine .inr ⟨heapLeft pos, _, by simp [heapMinPos, hlen, hrlen, h₁, h₂], hl,
            parent_left pos, hkl, h₁, fun i y hi hpi hy => ?_⟩
          rcases hkids i y hi hpi hy with rfl | rfl <;> omega
      · by_cases h₂ : a[heapRight pos].val < t.val
        · refine .inr ⟨heapRight pos, _, by simp [heapMinPos, hlen, hrlen, h₁, h₂], hr,
            parent_right pos, hkr, h₂, fun i y hi hpi hy => ?_⟩
          rcases hkids i y hi hpi hy with rfl | rfl <;> omega
        · refine .inl ⟨by simp [heapMinPos, hlen, hrlen, h₁, h₂], fun i y hi hpi hy => ?_⟩
          rcases hkids i y hi hpi hy with rfl | rfl <;> omega
    · have hkids : ∀ (i : Nat) (y : HeapItem), 0 < i → Heap.parent i = pos → a[i]? = some y →
          y = a[heapLeft pos] := by
        intro i y hi hpi hy
        rcases child_cases hi hpi with rfl | rfl
        · exact Option.some.inj (hy.symm.trans hkl)
        · exact absurd (hout hy) hrlen
      by_cases h₁ : a[heapLeft pos].val < t.val
      · refine .inr ⟨heapLeft pos, _, by simp [heapMinPos, hlen, hrlen, h₁], hl, parent_left pos,
          hkl, h₁, fun i y hi hpi hy => ?_⟩
        rw [hkids i y hi hpi hy]
      · refine .inl ⟨by simp [heapMinPos, hlen, hrlen, h₁], fun i y hi hpi hy => ?_⟩
        rw [hkids i y hi hpi hy]
        omega
  · refine .inl ⟨by simp [heapMinPos, hlen, show ¬heapRight pos < a.length by omega],
      fun i y hi hpi hy => ?_⟩
    have := hout hy
    rcases child_cases hi hpi with rfl | rfl <;> omega

theorem heapDown_loop (hr : Sinking HeapItem.val (a.set pos t) pos)
    (hs : Sifting v₀ refs₀ t (a, refs, pos)) (hn : (v₀.map HeapItem.ref).Nodup) :
    ∃ s, loop (heapDownTurn t a.length) (a.length + 1) (a, refs, pos) = some s ∧
      Sifting v₀ refs₀ t s ∧ Ordered HeapItem.val (s.1.set s.2.2 t) := by
  refine loop_total (heapDownTurn t a.length)
    (fun s => Sifting v₀ refs₀ t s ∧ Sinking HeapItem.val (s.1.set s.2.2 t) s.2.2 ∧
      s.1.length = a.length) (fun s => a.length - s.2.2)
    (fun s => Sifting v₀ refs₀ t s ∧ Ordered HeapItem.val (s.1.set s.2.2 t)) ?_
    (a.length + 1) (a, refs, pos) ⟨hs, hr, rfl⟩ (by simp only; omega)
  intro ⟨b, refs, pos⟩ ⟨hs, hr, hlen⟩
  simp only at hr hlen ⊢
  have hlt : pos < b.length := hs.lt
  have hkid : ∀ {i : Nat}, 0 < i → Heap.parent i = pos → (b.set pos t)[i]? = b[i]? := by
    intro i hi hpi
    have := parent_lt hi
    exact List.getElem?_set_ne (by omega)
  rcases heapMinPos_spec t b pos with ⟨hmin, hall⟩ | ⟨c, x, hmin, hc, hpc, hx, hval, hall⟩
  · refine .inr ⟨(b, refs, pos), by simp [heapDownTurn, ← hlen, hmin], hs, hr.ordered ?_⟩
    intro i hi hpi y z hy hz
    rw [hs.self] at hy
    rw [hkid hi hpi] at hz
    cases hy
    exact hall i z hi hpi hz
  · have hpc' : pos < c := hpc ▸ parent_lt hc
    have hclt := (List.getElem?_eq_some_iff.mp hx).1
    have hne : c ≠ pos := Nat.ne_of_gt hpc'
    obtain ⟨b', refs', hplace, hs', hswap, hlen'⟩ := hs.move hn hx hne
    refine .inl ⟨(b', refs', c), ?_, ⟨hs', ?_, hlen'.trans hlen⟩, by simp only; omega⟩
    · simp [heapDownTurn, ← hlen, hmin, hne, hx, hplace]
    · simp only
      rw [hswap]
      refine hr.swap hc hpc hs.self ((hkid hc hpc).trans hx) hval fun i hi hpi y z hy hz => ?_
      rw [hkid hc hpc, hx] at hy
      rw [hkid hi hpi] at hz
      cases hy
      exact hall i z hi hpi hz

/-! ## 3. `heap_update`

Whether the item is smaller than its parent decides which half of the order is missing, and so
which loop is right.
-/

/-- **`heap_update` repairs a heap with one item replaced**: it ends, keeps the items, restores
the order, and tells every item where it is, and writes to no other field. -/
theorem heapUpdate_spec (hm : Misplaced HeapItem.val a pos) (hlt : pos < a.length)
    (hn : (a.map HeapItem.ref).Nodup)
    (hrefs : ∀ (i : Nat) (x : HeapItem), i ≠ pos → a[i]? = some x → refs x.ref = some i) :
    ∃ a' refs', heapUpdate a refs pos a.length = some (a', refs') ∧ Repaired a refs a' refs' := by
  obtain ⟨t, ht⟩ : ∃ t, a[pos]? = some t := ⟨_, List.getElem?_eq_getElem hlt⟩
  have hset : a.set pos t = a := by
    obtain ⟨_, rfl⟩ := List.getElem?_eq_some_iff.mp ht
    exact List.set_getElem_self hlt
  have hs : Sifting a refs t (a, refs, pos) :=
    ⟨hlt, by rw [hset], hrefs, fun _ _ => rfl⟩
  have hdown : Sinking HeapItem.val a pos →
      ∃ a' refs', heapDown a refs pos a.length = some (a', refs') ∧ Repaired a refs a' refs' := by
    intro hsink
    obtain ⟨⟨b, refs', pos'⟩, hloop, hs', hord⟩ := heapDown_loop (hset.symm ▸ hsink) hs hn
    obtain ⟨a', refs'', hplace, hrep⟩ := hs'.place hn hord
    exact ⟨a', refs'', by simp [heapDown, ht, hloop, hplace], hrep⟩
  unfold heapUpdate
  by_cases hpos : pos = 0
  · rw [if_pos hpos]
    exact hdown ⟨hm, fun h => absurd h (by omega)⟩
  · have hpos' : 0 < pos := Nat.pos_of_ne_zero hpos
    have hpar : heapParent pos < pos := parent_lt hpos'
    have hp : a[heapParent pos]? = some a[heapParent pos] :=
      List.getElem?_eq_getElem (hpar.trans hlt)
    simp only [if_neg hpos, hp, ht, Option.bind_eq_bind, Option.bind_some]
    by_cases hval : t.val < a[heapParent pos].val
    · -- smaller than the parent, hence than everything that was below the parent
      have hrise : Rising HeapItem.val a pos := by
        refine ⟨hm, fun i hi hpi x y hx hy => ?_⟩
        rw [ht] at hx
        cases hx
        exact (Nat.le_of_lt hval).trans (hm.skip i hi hpi hpos' _ y hp hy)
      obtain ⟨⟨b, refs', pos'⟩, hloop, hs', hord⟩ := heapUp_loop (hset.symm ▸ hrise) hs hn
      obtain ⟨a', refs'', hplace, hrep⟩ := hs'.place hn hord
      refine ⟨a', refs'', ?_, hrep⟩
      rw [if_pos hval]
      simp [heapUp, ht, hloop, hplace]
    · rw [if_neg hval]
      refine hdown ⟨hm, fun _ x y hx hy => ?_⟩
      rw [ht] at hy
      rw [← heapParent_eq, hp] at hx
      cases hx
      cases hy
      exact Nat.le_of_not_lt hval

/-! ## 4. A heap with one item changed

The callers change one position of a heap and then call `heap_update` there. The three ways in
which they do are one inductive type, and each of them leaves one item misplaced.
-/

/-- What the callers do to a heap before they call `heap_update`: replace the item at a
position, append one, or move the last one into a position. -/
inductive Edited (v : List HeapItem) : List HeapItem → Nat → Prop
  | replace (pos : Nat) (t : HeapItem) : Edited v (v.set pos t) pos
  | append (t : HeapItem) : Edited v (v ++ [t]) v.length
  | remove (pos : Nat) {back : HeapItem} (h : v.getLast? = some back) :
      Edited v (v.set pos back).dropLast pos

theorem Edited.misplaced {v : List HeapItem} (h : Edited v a pos) (hord : Ordered HeapItem.val v) :
    Misplaced HeapItem.val a pos := by
  cases h with
  | replace => exact hord.set pos _
  | append t => exact hord.append t
  | remove => exact (hord.set pos _).dropLast

theorem Edited.getElem? {v : List HeapItem} (h : Edited v a pos) {i : Nat} (hi : i ≠ pos)
    {x : HeapItem} (hx : a[i]? = some x) : v[i]? = some x := by
  cases h with
  | replace =>
    rw [List.getElem?_set_ne fun hpi => hi hpi.symm] at hx
    exact hx
  | append t =>
    have hlen := (List.getElem?_eq_some_iff.mp hx).1
    rw [List.length_append, List.length_singleton] at hlen
    rw [List.getElem?_append_left (by omega)] at hx
    exact hx
  | remove =>
    rw [List.getElem?_dropLast] at hx
    split at hx
    · rw [List.getElem?_set_ne fun hpi => hi hpi.symm] at hx
      exact hx
    · cases hx

/-- A valid heap, as `verify` of the tests checks it. -/
structure ValidHeap (v : List HeapItem) (refs : HeapRefs) : Prop where
  order : ∀ (i : Nat) (x y : HeapItem), v[i]? = some x →
    v[heapLeft i]? = some y ∨ v[heapRight i]? = some y → x.val ≤ y.val
  indexed : ∀ (i : Nat) (x : HeapItem), v[i]? = some x → refs x.ref = some i

theorem ValidHeap.ordered {v : List HeapItem} (h : ValidHeap v refs) : Ordered HeapItem.val v := by
  intro i hi x y hx hy
  apply h.order (Heap.parent i) x y hx
  rcases child_cases hi rfl with hl | hr
  · exact .inl (hl ▸ hy)
  · exact .inr (hr ▸ hy)

theorem validHeap_of_ordered {v : List HeapItem} (hord : Ordered HeapItem.val v)
    (hrefs : ∀ (i : Nat) (x : HeapItem), v[i]? = some x → refs x.ref = some i) : ValidHeap v refs := by
  refine ⟨fun i x y hx hy => ?_, hrefs⟩
  rcases hy with hy | hy
  · exact hord (heapLeft i) (Nat.succ_pos _) x y ((parent_left i).symm ▸ hx) hy
  · exact hord (heapRight i) (Nat.succ_pos _) x y ((parent_right i).symm ▸ hx) hy

/-- **`heap_update` restores an indexed heap** after any of the changes its callers make: it
ends, keeps the items, brings every parent in order with its children, tells every item where it
is, and writes to no field of an item that is not in the array. -/
theorem heap_update_restores {v a : List HeapItem} {refs : HeapRefs} {pos : Nat}
    (hv : ValidHeap v refs) (he : Edited v a pos) (hlt : pos < a.length)
    (hn : (a.map HeapItem.ref).Nodup) :
    ∃ a' refs', heapUpdate a refs pos a.length = some (a', refs') ∧ a'.Perm a ∧ ValidHeap a' refs' ∧
      ∀ e, (∀ x ∈ a, x.ref ≠ e) → refs' e = refs e := by
  obtain ⟨a', refs', hrun, hrep⟩ := heapUpdate_spec (he.misplaced hv.ordered) hlt hn
    fun i x hi hx => hv.indexed i x (he.getElem? hi hx)
  exact ⟨a', refs', hrun, hrep.items, validHeap_of_ordered hrep.ordered hrep.indexed, hrep.others⟩

/-- The root of a heap of two is replaced by an item that has to sink. -/
theorem heap_update_restores_two :
    ValidHeap [⟨1, 0⟩, ⟨3, 1⟩] ⟨fun e => some e⟩ ∧ ∃ a' refs',
      heapUpdate [⟨5, 2⟩, ⟨3, 1⟩] ⟨fun e => some e⟩ 0 2 = some (a', refs') ∧
      a'.Perm [⟨5, 2⟩, ⟨3, 1⟩] ∧ ValidHeap a' refs' ∧ refs' 0 = some 0 := by
  have hv : ValidHeap [⟨1, 0⟩, ⟨3, 1⟩] ⟨fun e => some e⟩ := by
    constructor
    · intro i x y hx hy
      match i, hx with
      | 0, hx =>
        cases hx
        rcases hy with hy | hy <;> cases hy
        decide
      | 1, _ => rcases hy with hy | hy <;> cases hy
    · intro i x hx
      match i, hx with
      | 0, hx => cases hx; rfl
      | 1, hx => cases hx; rfl
  obtain ⟨a', refs', hrun, hperm, hvalid, hothers⟩ :=
    heap_update_restores hv (.replace 0 ⟨5, 2⟩) (by decide) (by decide)
  exact ⟨hv, a', refs', hrun, hperm, hvalid, hothers 0 (by simp)⟩

end ApexDB
