import ApexDB.Proof.Commands

/-!
# Expiry, and one request

`process_timers` removes entries that are due, one of them at a time and at most `k_max_works +
1`; the loop at the head of `execute` repeats it until the root of the heap is not due. Each
turn takes one due key out of the map (`Faded`), so when no deadline is over any more what is
left is `purge`.

In which order the due keys go is up to the heap, and how many go in one pass is a bound of the
source. Neither can be seen by a request, as it starts by finishing the work at its own reading
of the clock.
-/

set_option autoImplicit false

namespace ApexDB

open Lib

variable {Z : Type} {rel : ZTree → Z → Prop} {st : Store} {m m' m'' : RefStore Z}

/-! ## 1. Maps that lose entries

`Faded` is a preorder, and all maps between `m` and `m.purge now` are faded from `m`. What holds
of every entry of a map holds of every faded one.
-/

/-- `m'` is `m` without some of the entries due at `now`: every key has what it had, or has lost
an entry that was due. -/
def Faded (now : Nat) (m m' : RefStore Z) : Prop :=
  ∀ key, m'.lookup key = m.lookup key ∨
    m'.lookup key = none ∧ ∃ re, m.lookup key = some re ∧ re.due now = true

theorem Faded.refl (now : Nat) (m : RefStore Z) : Faded now m m := fun _ => .inl rfl

theorem Faded.trans {now : Nat} (h : Faded now m m') (h' : Faded now m' m'') : Faded now m m'' := by
  intro key
  rcases h' key with heq | ⟨hnone, re, hre, hdue⟩
  · rw [heq]
    exact h key
  · rcases h key with heq | ⟨hnone', -⟩
    · exact .inr ⟨hnone, re, heq ▸ hre, hdue⟩
    · rw [hnone'] at hre
      cases hre

def RefStore.All (p : Bytes → RefEntry Z → Prop) (m : RefStore Z) : Prop :=
  ∀ key re, m.lookup key = some re → p key re

section All

variable {p : Bytes → RefEntry Z → Prop} {key : Bytes} {re : RefEntry Z}

theorem RefStore.All.empty : RefStore.All p ∅ := by
  intro k r hr
  rw [Finmap.lookup_empty] at hr
  cases hr

theorem RefStore.All.insert (h : m.All p) (hre : p key re) : RefStore.All p (m.insert key re) := by
  intro k r hr
  by_cases hk : k = key
  · subst hk
    rw [Finmap.lookup_insert] at hr
    cases hr
    exact hre
  · rw [Finmap.lookup_insert_of_ne _ hk] at hr
    exact h k r hr

theorem RefStore.All.erase (h : m.All p) (key : Bytes) : RefStore.All p (m.erase key) := by
  intro k r hr
  by_cases hk : k = key
  · rw [hk, Finmap.lookup_erase] at hr
    cases hr
  · rw [Finmap.lookup_erase_ne hk] at hr
    exact h k r hr

theorem RefStore.All.faded {now : Nat} (h : m.All p) (hf : Faded now m m') : m'.All p := by
  intro k r hr
  rcases hf k with heq | ⟨hnone, -⟩
  · exact h k r (heq ▸ hr)
  · rw [hnone] at hr
    cases hr

end All

theorem RefEntry.due_iff {now : Nat} {re : RefEntry Z} :
    re.due now = true ↔ ∃ d, re.deadline = some d ∧ d ≤ now := by
  unfold RefEntry.due
  cases re.deadline with
  | none => simp
  | some d => simp

theorem RefEntry.not_due_iff {now : Nat} {re : RefEntry Z} :
    re.due now = false ↔ ∀ d, re.deadline = some d → now < d := by
  rw [← Bool.not_eq_true, RefEntry.due_iff, not_exists]
  refine forall_congr' fun d => ?_
  rw [not_and, Nat.not_le]

theorem RefEntry.due_mono {now now' : Nat} (hle : now ≤ now') {re : RefEntry Z}
    (h : re.due now = true) : re.due now' = true := by
  obtain ⟨d, hd, hdue⟩ := RefEntry.due_iff.mp h
  exact RefEntry.due_iff.mpr ⟨d, hd, Nat.le_trans hdue hle⟩

theorem Faded.mono {now now' : Nat} (hle : now ≤ now') (h : Faded now m m') : Faded now' m m' := by
  intro key
  rcases h key with heq | ⟨hnone, re, hre, hdue⟩
  · exact .inl heq
  · exact .inr ⟨hnone, re, hre, RefEntry.due_mono hle hdue⟩

theorem faded_erase {now : Nat} {key : Bytes} {re : RefEntry Z} (hre : m.lookup key = some re)
    (hdue : re.due now = true) : Faded now m (m.erase key) := by
  intro k
  by_cases hk : k = key
  · subst hk
    exact .inr ⟨Finmap.lookup_erase _ _, re, hre, hdue⟩
  · exact .inl (Finmap.lookup_erase_ne hk)

theorem RefStore.lookup_filter (p : RefEntry Z → Bool) (m : RefStore Z) (key : Bytes) :
    (m.filter p).lookup key = (m.lookup key).filter p := by
  apply Option.ext
  intro re
  rw [Option.filter_eq_some_iff, ← Option.mem_def, ← Option.mem_def, Finmap.mem_lookup_iff,
    Finmap.mem_lookup_iff, RefStore.filter, Multiset.mem_filter]

/-- The entries not due are what is left in the end, whatever was removed before. -/
theorem Faded.purge_eq {now : Nat} (h : Faded now m m') : m'.purge now = m.purge now := by
  refine Finmap.ext_lookup fun key => ?_
  rw [RefStore.purge, RefStore.purge, RefStore.lookup_filter, RefStore.lookup_filter]
  rcases h key with heq | ⟨hnone, re, hre, hdue⟩
  · rw [heq]
  · rw [hnone, hre]
    simp [Option.filter, hdue]

theorem faded_purge (now : Nat) (m : RefStore Z) : Faded now m (m.purge now) := by
  intro key
  rw [RefStore.purge, RefStore.lookup_filter]
  cases hre : m.lookup key with
  | none => exact .inl rfl
  | some re =>
    cases hdue : re.due now with
    | false => exact .inl (by simp [Option.filter, hdue])
    | true => exact .inr ⟨by simp [Option.filter, hdue], re, rfl, hdue⟩

theorem purge_of_not_due {now : Nat}
    (h : ∀ key re, m.lookup key = some re → re.due now = false) : m.purge now = m := by
  refine Finmap.ext_lookup fun key => ?_
  rw [RefStore.purge, RefStore.lookup_filter]
  cases hre : m.lookup key with
  | none => rfl
  | some re => simp [Option.filter, h key re hre]

theorem purge_single {now : Nat} {key : Bytes} {re : RefEntry Z} (h : re.due now = false) :
    RefStore.purge now (Finmap.insert key re ∅) = Finmap.insert key re ∅ :=
  purge_of_not_due (RefStore.All.empty.insert h)

/-! ## 2. The loops

The root of the heap has the earliest deadline, so the test at the head of each loop decides
whether anything is due. A turn removes the root's item from the heap, which is the measure of
both loops.
-/

def Store.headDue (now : Nat) (st : Store) : Prop := ∃ item, st.heap.head? = some item ∧ item.val ≤ now

/-- The root of the heap is the deadline of an entry in the map. -/
theorem Store.Rows.root_armed {rows : List (Row Z)} (h : st.Rows rel rows) {item : HeapItem}
    (hh : st.heap.head? = some item) :
    deadlineAt st.heap st.refs item.ref = some item.val ∧ item.ref ∈ rows.map Row.id := by
  have hitem : ⟨item.val, item.ref⟩ ∈ st.heap := List.mem_of_head? hh
  have hdl := h.timers.deadline_iff.mpr hitem
  refine ⟨hdl, h.armed _ ?_⟩
  rw [Ne, ← h.timers.deadline_none, hdl]
  simp

theorem Store.Models.root_mem (h : st.Models rel m) {item : HeapItem} (hh : st.heap.head? = some item) :
    ∃ key re, m.lookup key = some re ∧ re.deadline = some item.val := by
  obtain ⟨rows, h, hc⟩ := h
  obtain ⟨hdl, hmem⟩ := h.toRows.root_armed hh
  obtain ⟨r, hr, hid⟩ := List.mem_map.mp hmem
  refine ⟨r.key, r.entry, (hc _ _).mpr ⟨r, hr, rfl, rfl⟩, ?_⟩
  rw [← (h.shows r hr).deadline, hid, hdl]

/-- No deadline is earlier than the root of the heap. -/
theorem Store.Models.root_le (h : st.Models rel m) {item : HeapItem}
    (hh : st.heap.head? = some item) {key : Bytes} {re : RefEntry Z} {d : Nat}
    (hre : m.lookup key = some re) (hd : re.deadline = some d) : item.val ≤ d := by
  obtain ⟨rows, h, hc⟩ := h
  obtain ⟨r, hr, -, rfl⟩ := (hc key re).mp hre
  rw [← (h.shows r hr).deadline] at hd
  exact h.timers.head_le hh hd

theorem Store.Models.heap_ne_nil (h : st.Models rel m) {key : Bytes} {re : RefEntry Z} {d : Nat}
    (hre : m.lookup key = some re) (hd : re.deadline = some d) :
    ∃ item, st.heap.head? = some item := by
  obtain ⟨rows, h, hc⟩ := h
  obtain ⟨r, hr, -, rfl⟩ := (hc key re).mp hre
  rw [← (h.shows r hr).deadline] at hd
  have hmem := h.timers.deadline_iff.mp hd
  cases hh : st.heap.head? with
  | none =>
    rw [List.head?_eq_none_iff.mp hh] at hmem
    cases hmem
  | some item => exact ⟨item, rfl⟩

/-- When the root is not due, nothing is. -/
theorem Store.Models.not_due {now : Nat} (h : st.Models rel m) (hd : ¬st.headDue now) :
    ∀ key re, m.lookup key = some re → re.due now = false := by
  intro key re hre
  refine RefEntry.not_due_iff.mpr fun d hdl => ?_
  obtain ⟨item, hh⟩ := h.heap_ne_nil hre hdl
  have hlt : now < item.val := Nat.lt_of_not_le fun hle => hd ⟨item, hh, hle⟩
  exact Nat.lt_of_lt_of_le hlt (h.root_le hh hre hdl)

theorem Timers.length_lt {heap heap' : List HeapItem} {refs refs' : HeapRefs} {e : EntryId} {v : Nat}
    (h : Timers heap refs) (h' : Timers heap' refs') (hv : deadlineAt heap refs e = some v)
    (hd : deadlineAt heap' refs' = Function.update (deadlineAt heap refs) e none) :
    heap'.length < heap.length := by
  have hmem : ∀ x ∈ heap', x.ref ≠ e ∧ x ∈ heap := by
    rintro ⟨w, f⟩ hx
    have hw := h'.deadline_iff.mpr hx
    rw [hd, Function.update_apply] at hw
    split at hw
    · cases hw
    · rename_i hne
      exact ⟨hne, h.deadline_iff.mp hw⟩
  have hnodup : (⟨v, e⟩ :: heap' : List HeapItem).Nodup := by
    rw [List.nodup_cons]
    exact ⟨fun hx => (hmem _ hx).1 rfl, List.Nodup.of_map _ h'.nodup⟩
  have hsub : (⟨v, e⟩ :: heap' : List HeapItem) ⊆ heap := by
    intro x hx
    rcases List.mem_cons.mp hx with rfl | hx
    · exact h.deadline_iff.mp hv
    · exact (hmem x hx).2
  exact (List.subperm_of_subset hnodup hsub).length_le

/-- **One turn of `process_timers` on a root that is due** takes the entry of the root out of
the map and disposes of it; the assertion holds, as the entry is found by its address. -/
theorem processTimersTurn_root {now : Nat} (h : st.Models rel m) {item : HeapItem}
    (hh : st.heap.head? = some item) (hdue : item.val ≤ now) (n : Nat) :
    ∃ st' key re, processTimersTurn now (st, n) =
        some (if kMaxWorks ≤ n then .done st' else .again (st', n + 1)) ∧
      m.lookup key = some re ∧ re.deadline = some item.val ∧ st'.Models rel (m.erase key) ∧
      st'.heap.length < st.heap.length := by
  obtain ⟨rows, h, hc⟩ := h
  obtain ⟨hdl, hmem⟩ := h.toRows.root_armed hh
  obtain ⟨r, rows', hp, hid⟩ := exists_perm_of_mem hmem
  have hrow := h.shows r (hp.mem_iff.mpr List.mem_cons_self)
  obtain ⟨ent, hread, hkey, -⟩ := hrow.live
  have haddr : ∀ e ∈ rows.map Row.id, strHash (st.keyAt e) = strHash ent.key ∧
      (e == item.ref) = true ↔ e = item.ref := by
    intro e _
    rw [beq_iff_eq]
    refine ⟨fun h => h.2, fun he => ⟨?_, he⟩⟩
    rw [he, ← hid, hrow.keyAt, hkey]
  rcases h.index.delete haddr with ⟨db, e, ids, hrun, rfl, hperm, hi⟩ | ⟨-, -, -, hmiss⟩
  · have hids : ids.Perm (rows'.map Row.id) := by
      have := hperm.symm.trans (hp.map Row.id)
      rw [List.map_cons, hid] at this
      exact this.cons_inv
    have hout : Store.Unlinked rel { st with db := db } r rows' :=
      ⟨(h.toRows.of_perm hp).set_db db, (h.toKept.of_perm (hp.map _)).congr rfl rfl, hi.of_perm hids⟩
    obtain ⟨st', hdel, h', -, hd⟩ := entryDel_spec hout
    rw [hid] at hread hdel hd
    have hc' := hc.of_perm hp
    refine ⟨st', r.key, r.entry, ?_, hc'.lookup_head, ?_,
      ⟨rows', h', hc'.erase hout.toRows.key_ne⟩, h.timers.length_lt h'.timers hdl hd⟩
    · simp [processTimersTurn, hh, hdue, hread, hrun, hdel]
    · rw [← hrow.deadline, hid, hdl]
  · exact absurd rfl (hmiss _ hmem)

/-- The same turn, without saying which of the due entries is gone. -/
theorem processTimersTurn_due {now : Nat} (h : st.Models rel m) (hd : st.headDue now) (n : Nat) :
    ∃ st' m', processTimersTurn now (st, n) =
        some (if kMaxWorks ≤ n then .done st' else .again (st', n + 1)) ∧
      st'.Models rel m' ∧ Faded now m m' ∧ st'.heap.length < st.heap.length := by
  obtain ⟨item, hh, hdue⟩ := hd
  obtain ⟨st', key, re, hturn, hre, hdl, h', hlt⟩ := processTimersTurn_root h hh hdue n
  exact ⟨st', m.erase key, hturn, h', faded_erase hre (RefEntry.due_iff.mpr ⟨_, hdl, hdue⟩), hlt⟩

theorem processTimersTurn_idle {now : Nat} (hd : ¬st.headDue now) (n : Nat) :
    processTimersTurn now (st, n) = some (.done st) := by
  unfold processTimersTurn
  cases hh : st.heap.head? with
  | none => simp [hh]
  | some item =>
    have hlt : ¬item.val ≤ now := fun hle => hd ⟨item, hh, hle⟩
    simp [hh, hlt]

/-- **`process_timers` returns**, with some due entries gone and, if the root was due, the root.
-/
theorem processTimers_spec (h : st.Models rel m) (now : Nat) :
    ∃ st', processTimers now st = some st' ∧ ∃ m', st'.Models rel m' ∧ Faded now m m' ∧
      (st.headDue now → st'.heap.length < st.heap.length) := by
  -- after some turns: either none was made yet, or the heap is shorter
  refine loop_total (processTimersTurn now)
    (fun s => ∃ m', s.1.Models rel m' ∧ Faded now m m' ∧
      (s.1 = st ∨ s.1.heap.length < st.heap.length))
    (fun s => s.1.heap.length) _ ?_ _ _ ⟨m, h, Faded.refl now m, .inl rfl⟩ (Nat.lt_succ_self _)
  rintro ⟨s, n⟩ ⟨m₁, h₁, hf₁, hlen₁⟩
  by_cases hd : s.headDue now
  · obtain ⟨s', m₂, hturn, h₂, hf₂, hlt⟩ := processTimersTurn_due h₁ hd n
    have hlt' : s'.heap.length < st.heap.length := by
      rcases hlen₁ with rfl | hlen₁
      · exact hlt
      · exact hlt.trans hlen₁
    by_cases hmax : kMaxWorks ≤ n
    · rw [if_pos hmax] at hturn
      exact .inr ⟨s', hturn, m₂, h₂, hf₁.trans hf₂, fun _ => hlt'⟩
    · rw [if_neg hmax] at hturn
      exact .inl ⟨(s', n + 1), hturn, ⟨m₂, h₂, hf₁.trans hf₂, .inr hlt'⟩, hlt⟩
  · refine .inr ⟨s, processTimersTurn_idle hd n, m₁, h₁, hf₁, fun hst => ?_⟩
    rcases hlen₁ with rfl | hlen₁
    · exact absurd hst hd
    · exact hlen₁

/-- **The loop at the head of `execute` removes exactly what is due.** -/
theorem expire_spec (h : st.Models rel m) (now : Nat) :
    ∃ st', expire now st = some st' ∧ st'.Models rel (m.purge now) := by
  refine loop_total (expireTurn now) (fun s => ∃ m', s.Models rel m' ∧ Faded now m m')
    (fun s => s.heap.length) _ ?_ _ _ ⟨m, h, Faded.refl now m⟩ (Nat.lt_succ_self _)
  rintro s ⟨m₁, h₁, hf₁⟩
  by_cases hd : s.headDue now
  · obtain ⟨s', hrun, m₂, h₂, hf₂, hlt⟩ := processTimers_spec h₁ now
    refine .inl ⟨s', ?_, ⟨m₂, h₂, hf₁.trans hf₂⟩, hlt hd⟩
    obtain ⟨item, hh, hdue⟩ := hd
    simp [expireTurn, hh, hdue, hrun]
  · refine .inr ⟨s, ?_, ?_⟩
    · unfold expireTurn
      cases hh : s.heap.head? with
      | none => rfl
      | some item => exact if_neg fun hle => hd ⟨item, hh, hle⟩
    · rw [← hf₁.purge_eq, purge_of_not_due (h₁.not_due hd)]
      exact h₁

/-! ## 3. One request

The command is answered on the map without the entries that were due at the reading of the clock
with which the request began.
-/

/-- **`execute` removes what is due and then answers what the map answers.** -/
theorem execute_spec {R : Reading Z} (hR : R.Sound rel) (strtod : Bytes → StrtodResult)
    (h : st.Models rel m) (now clk : Nat) (cmd : List Bytes) (out : Buffer) :
    Answers rel out (execute strtod now clk cmd st out)
      (refCommand R strtod clk (m.purge now) (dispatch cmd)) := by
  obtain ⟨st', hrun, h'⟩ := expire_spec h now
  unfold execute
  rw [hrun, Option.bind_eq_bind, Option.bind_some]
  exact runCommand_spec hR strtod clk h' (dispatch cmd)

end ApexDB
