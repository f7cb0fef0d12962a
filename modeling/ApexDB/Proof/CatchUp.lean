import ApexDB.Proof.Batch

/-!
# The timers catch up

One call of `process_timers` does a bounded part of the work (`processTimers_expired`). What is
left is not lost: the entries go earliest first, **so entries that fall due later do not delay
those that are due already**, and each call takes 2001 of the latter until there are none. As
long as there are any, `next_timer_ms` is 0 and the loop does not sleep before the next call.

The calls are at any times that are not before `now`. Between them no request comes in; one that
did would remove everything that is due at its own time, which only helps.
-/

set_option autoImplicit false

namespace ApexDB

open Lib

variable {Z : Type} {rel : ZTree → Z → Prop} {m m' : RefStore Z} {now t n : Nat}

theorem dueKeys_mono (hle : now ≤ t) (m : RefStore Z) : m.dueKeys now ⊆ m.dueKeys t := by
  intro key hkey
  obtain ⟨re, d, hre, hd, hdue⟩ := mem_dueKeys_iff.mp hkey
  exact mem_dueKeys_iff.mpr ⟨re, d, hre, hd, hdue.trans hle⟩

/-- What is due after a call was due before it and has not gone. -/
theorem Expired.dueKeys_eq (h : Expired t m m' n) : m'.dueKeys now = m.dueKeys now \ (m.keys \ m'.keys) := by
  ext key
  rw [Finset.mem_sdiff, mem_dueKeys_iff, mem_dueKeys_iff, Finset.mem_sdiff, mem_keys_iff, mem_keys_iff]
  constructor
  · rintro ⟨re, d, hre, hd, hle⟩
    exact ⟨⟨re, d, h.kept key re hre, hd, hle⟩, fun hgone => hgone.2 ⟨re, hre⟩⟩
  · rintro ⟨⟨re, d, hre, hd, hle⟩, hstays⟩
    cases hre' : m'.lookup key with
    | none =>
      refine absurd ⟨⟨re, hre⟩, ?_⟩ hstays
      rintro ⟨r, hr⟩
      rw [hre'] at hr
      cases hr
    | some re' =>
      have hsame := h.kept key re' hre'
      rw [hre] at hsame
      cases hsame
      exact ⟨re, d, rfl, hd, hle⟩

/-- **A later call takes from what is due now**, as much as there is of it. -/
theorem Expired.card_dueKeys (h : Expired t m m' (min (kMaxWorks + 1) (m.dueKeys t).card)) (hle : now ≤ t) :
    (m'.dueKeys now).card = (m.dueKeys now).card - (kMaxWorks + 1) := by
  have hcard := Finset.card_le_card (dueKeys_mono hle m)
  by_cases hleft : m'.dueKeys now = ∅
  · -- all of them have gone, so they were not more than one call takes
    have hgone : m.dueKeys now ⊆ m.keys \ m'.keys := by
      rwa [h.dueKeys_eq, Finset.sdiff_eq_empty_iff_subset] at hleft
    have hfew := Finset.card_le_card hgone
    rw [h.count] at hfew
    rw [hleft, Finset.card_empty]
    omega
  · -- one of them is left, so nothing later has gone
    obtain ⟨key, hkey⟩ := Finset.nonempty_iff_ne_empty.mpr hleft
    obtain ⟨re, d, hre, hd, hdue⟩ := mem_dueKeys_iff.mp hkey
    have hgone : m.keys \ m'.keys ⊆ m.dueKeys now := by
      intro k hk
      obtain ⟨hk, hk'⟩ := Finset.mem_sdiff.mp hk
      obtain ⟨r, hr⟩ := mem_keys_iff.mp hk
      obtain ⟨v, hv, -, hfirst⟩ := h.first k r hr (not_mem_keys_iff.mp hk')
      exact mem_dueKeys_iff.mpr ⟨r, v, hr, hv, (hfirst key re d hre hd (hdue.trans hle)).trans hdue⟩
    have hlate : (m.dueKeys now \ (m.keys \ m'.keys)).card = (m.dueKeys now).card - (m.keys \ m'.keys).card :=
      Finset.card_sdiff_of_subset hgone
    have hsome : 0 < (m'.dueKeys now).card := Finset.card_pos.mpr ⟨key, hkey⟩
    rw [h.dueKeys_eq, hlate, h.count] at hsome ⊢
    omega

theorem Expired.faded (h : Expired t m m' n) : Faded t m m' := by
  intro key
  cases hre' : m'.lookup key with
  | some re => exact .inl (h.kept key re hre').symm
  | none =>
    cases hre : m.lookup key with
    | none => exact .inl rfl
    | some re =>
      obtain ⟨d, hd, hle, -⟩ := h.first key re hre hre'
      exact .inr ⟨rfl, re, rfl, RefEntry.due_iff.mpr ⟨d, hd, hle⟩⟩

/-- **Several calls**, each at its own time, of which the last is the latest. -/
theorem processTimers_times {last : Nat} : ∀ {times : List Nat} {st : Store} {m : RefStore Z}, st.Models rel m →
    (∀ t ∈ times, now ≤ t ∧ t ≤ last) →
    ∃ st' m', times.foldlM (fun st t => processTimers t st) st = some st' ∧ st'.Models rel m' ∧
      (m'.dueKeys now).card = (m.dueKeys now).card - times.length * (kMaxWorks + 1) ∧ Faded last m m' := by
  intro times
  induction times with
  | nil =>
    intro st m h _
    exact ⟨st, m, rfl, h, by simp, Faded.refl last m⟩
  | cons t times ih =>
    intro st m h htimes
    obtain ⟨hnow, hlast⟩ := htimes t List.mem_cons_self
    obtain ⟨st₁, hcall, m₁, h₁, hexp⟩ := processTimers_expired h t
    obtain ⟨st', m', hrest, h', hcard, hfaded⟩ := ih h₁ fun t' ht' => htimes t' (List.mem_cons_of_mem _ ht')
    refine ⟨st', m', ?_, h', ?_, (hexp.faded.mono hlast).trans hfaded⟩
    · rw [List.foldlM_cons, hcall]
      exact hrest
    · rw [hcard, hexp.card_dueKeys hnow, List.length_cons, Nat.succ_mul]
      omega

/-- **Expired keys are worked off.** For every reachable store and every time `now`: of the keys
that are due at `now`, each call of `process_timers` at that time or later removes 2001, or all
that are left; so after as many calls as it takes none of them is there, whatever falls due in
the meantime. Nothing else has gone but what was due at the last call. And while one of them is
there, `next_timer_ms` is 0 at `now` and at every later time, so the loop does not sleep. -/
theorem timers_catch_up (strtod : Bytes → StrtodResult) (threads : Nat) (evs : List StoreEvent) :
    ∃ st outs m, run (storeStep strtod) { threads := threads } evs = some (st, outs) ∧ st.Models ScoresOf m ∧
      ∀ (now last : Nat) (times : List Nat), (∀ t ∈ times, now ≤ t ∧ t ≤ last) → ∃ st' m',
        times.foldlM (fun st t => processTimers t st) st = some st' ∧ st'.Models ScoresOf m' ∧
        (m'.dueKeys now).card = (m.dueKeys now).card - times.length * (kMaxWorks + 1) ∧ Faded last m m' ∧
        (now < 2 ^ 64 - 1 → m'.dueKeys now ≠ ∅ → ∀ t, now ≤ t → nextTimerMs t st' = 0) := by
  obtain ⟨st, outs, m, hrun, h⟩ := store_run_models mapReading_sound strtod evs (Store.models_empty threads)
  refine ⟨st, outs, m, hrun, h, fun now last times htimes => ?_⟩
  obtain ⟨st', m', hcalls, h', hcard, hfaded⟩ := processTimers_times h htimes
  refine ⟨st', m', hcalls, h', hcard, hfaded, fun hnow hleft t ht => ?_⟩
  obtain ⟨key, hkey⟩ := Finset.nonempty_iff_ne_empty.mpr hleft
  obtain ⟨re, d, hre, hd, hdue⟩ := mem_dueKeys_iff.mp hkey
  obtain ⟨item, hhead⟩ := h'.heap_ne_nil hre hd
  have hroot : item.val ≤ now := (h'.root_le hhead hre hd).trans hdue
  have hval : (if item.val < 2 ^ 64 - 1 then item.val else 2 ^ 64 - 1) = item.val :=
    if_pos (Nat.lt_of_le_of_lt hroot hnow)
  simp only [nextTimerMs, hhead, hval, msUntil]
  rw [if_neg (Nat.ne_of_lt (Nat.lt_of_le_of_lt hroot hnow)), if_pos (hroot.trans ht)]

end ApexDB
