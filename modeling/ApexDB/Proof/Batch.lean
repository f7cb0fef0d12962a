import Mathlib.Data.Finset.Card
import ApexDB.Proof.StoreRuns

/-!
# One call of `process_timers`

Each turn of the loop removes the entry at the root of the heap, so the entries go **earliest
first** (`Expired`). The number of works is compared with `k_max_works` after the work is done
and before it is counted, so the call ends with the work number `k_max_works + 1` and not one
before: with enough entries due it removes 2001 of them (`processTimers_expired`).

The bound is there so that a pass over many expired keys does not keep the event loop from its
connections. One work more than declared does not hurt that purpose, but it is not what the
constant says.
-/

set_option autoImplicit false

namespace ApexDB

open Lib

variable {Z : Type} {rel : ZTree → Z → Prop}

/-! ## 1. Entries that go earliest first

In terms of maps, the heap left aside. Among entries with one deadline the order is open.
-/

def RefStore.dueKeys (now : Nat) (m : RefStore Z) : Finset Bytes :=
  m.keys.filter fun key => (m.lookup key).any (RefEntry.due now)

/-- `m'` is `m` without `n` of the entries that are due at `now`, and these are the earliest. -/
structure Expired (now : Nat) (m m' : RefStore Z) (n : Nat) : Prop where
  kept : ∀ key re, m'.lookup key = some re → m.lookup key = some re
  first : ∀ key re, m.lookup key = some re → m'.lookup key = none →
    ∃ d, re.deadline = some d ∧ d ≤ now ∧ ∀ key' re' d', m'.lookup key' = some re' →
      re'.deadline = some d' → d' ≤ now → d ≤ d'
  count : (m.keys \ m'.keys).card = n

theorem mem_keys_iff {m : RefStore Z} {key : Bytes} : key ∈ m.keys ↔ ∃ re, m.lookup key = some re := by
  rw [Finmap.mem_keys, Finmap.mem_iff]

theorem not_mem_keys_iff {m : RefStore Z} {key : Bytes} : key ∉ m.keys ↔ m.lookup key = none := by
  rw [Finmap.mem_keys, Finmap.lookup_eq_none]

theorem mem_dueKeys_iff {now : Nat} {m : RefStore Z} {key : Bytes} :
    key ∈ m.dueKeys now ↔ ∃ re d, m.lookup key = some re ∧ re.deadline = some d ∧ d ≤ now := by
  rw [RefStore.dueKeys, Finset.mem_filter, mem_keys_iff]
  constructor
  · rintro ⟨⟨re, hre⟩, hdue⟩
    rw [hre, Option.any_some] at hdue
    obtain ⟨d, hd, hle⟩ := RefEntry.due_iff.mp hdue
    exact ⟨re, d, hre, hd, hle⟩
  · rintro ⟨re, d, hre, hd, hle⟩
    refine ⟨⟨re, hre⟩, ?_⟩
    rw [hre, Option.any_some]
    exact RefEntry.due_iff.mpr ⟨d, hd, hle⟩

variable {now n : Nat} {m m' : RefStore Z}

theorem expired_refl (now : Nat) (m : RefStore Z) : Expired now m m 0 where
  kept := fun _ _ h => h
  first := fun key re h h' => by
    rw [h] at h'
    cases h'
  count := by rw [sdiff_self]; rfl

/-- **One more entry goes**, and it is the earliest of those that are left. -/
theorem Expired.erase (h : Expired now m m' n) {key : Bytes} {re : RefEntry Z} {d : Nat}
    (hre : m'.lookup key = some re) (hd : re.deadline = some d) (hle : d ≤ now)
    (hmin : ∀ key' re' d', m'.lookup key' = some re' → re'.deadline = some d' → d ≤ d') :
    Expired now m (m'.erase key) (n + 1) := by
  -- what is left after the step was left before it
  have hsub : ∀ key' re', (m'.erase key).lookup key' = some re' → m'.lookup key' = some re' := by
    intro key' re' h'
    by_cases hk : key' = key
    · rw [hk, Finmap.lookup_erase] at h'
      cases h'
    · rwa [Finmap.lookup_erase_ne hk] at h'
  refine ⟨fun key' re' h' => h.kept key' re' (hsub key' re' h'), fun k r hr hnone => ?_, ?_⟩
  · by_cases hk : k = key
    · subst hk
      obtain rfl : r = re := by
        rw [h.kept k re hre] at hr
        exact (Option.some.inj hr).symm
      exact ⟨d, hd, hle, fun key' re' d' h' hd' _ => hmin key' re' d' (hsub key' re' h') hd'⟩
    · rw [Finmap.lookup_erase_ne hk] at hnone
      obtain ⟨v, hv, hvle, hfirst⟩ := h.first k r hr hnone
      exact ⟨v, hv, hvle, fun key' re' d' h' => hfirst key' re' d' (hsub key' re' h')⟩
  · have hmem : key ∈ m'.keys := mem_keys_iff.mpr ⟨re, hre⟩
    have hmem' : key ∈ m.keys := mem_keys_iff.mpr ⟨re, h.kept key re hre⟩
    have hkeys : m.keys \ (m'.erase key).keys = insert key (m.keys \ m'.keys) := by
      ext k
      rw [Finmap.keys_erase, Finset.mem_sdiff, Finset.mem_insert, Finset.mem_sdiff, Finset.mem_erase]
      by_cases hk : k = key
      · subst hk
        simp [hmem']
      · simp [hk]
    rw [hkeys, Finset.card_insert_of_notMem fun hin => (Finset.mem_sdiff.mp hin).2 hmem, h.count]

theorem Expired.subset_due (h : Expired now m m' n) : m.keys \ m'.keys ⊆ m.dueKeys now := by
  intro key hkey
  rw [Finset.mem_sdiff, not_mem_keys_iff, mem_keys_iff] at hkey
  obtain ⟨⟨re, hre⟩, hnone⟩ := hkey
  obtain ⟨d, hd, hle, -⟩ := h.first key re hre hnone
  exact mem_dueKeys_iff.mpr ⟨re, d, hre, hd, hle⟩

theorem Expired.le_card (h : Expired now m m' n) : n ≤ (m.dueKeys now).card := by
  rw [← h.count]
  exact Finset.card_le_card h.subset_due

/-- When nothing that is left is due, all that was due is gone. -/
theorem Expired.eq_card (h : Expired now m m' n)
    (hnone : ∀ key re, m'.lookup key = some re → re.due now = false) :
    n = (m.dueKeys now).card := by
  refine Nat.le_antisymm h.le_card ?_
  rw [← h.count]
  refine Finset.card_le_card fun key hkey => ?_
  obtain ⟨re, d, hre, hd, hle⟩ := mem_dueKeys_iff.mp hkey
  rw [Finset.mem_sdiff, not_mem_keys_iff]
  refine ⟨mem_keys_iff.mpr ⟨re, hre⟩, ?_⟩
  cases hre' : m'.lookup key with
  | none => rfl
  | some re' =>
    have hsame := h.kept key re' hre'
    rw [hre] at hsame
    cases hsame
    have hlt := RefEntry.not_due_iff.mp (hnone key re hre') d hd
    exact absurd hle (Nat.not_le.mpr hlt)

/-! ## 2. The loop

The induction is on the turns, with the number of works so far as the number of entries that are
gone.
-/

/-- **One call removes the earliest of the due entries, one more than `k_max_works` at most.**
-/
theorem processTimers_expired {st : Store} (h : st.Models rel m) (now : Nat) :
    ∃ st', processTimers now st = some st' ∧ ∃ m', st'.Models rel m' ∧
      Expired now m m' (min (kMaxWorks + 1) (m.dueKeys now).card) := by
  refine loop_total (processTimersTurn now)
    (fun s => ∃ m', s.1.Models rel m' ∧ Expired now m m' s.2 ∧ s.2 ≤ kMaxWorks)
    (fun s => s.1.heap.length) _ ?_ _ _ ⟨m, h, expired_refl now m, Nat.zero_le _⟩
    (Nat.lt_succ_self _)
  rintro ⟨s, n⟩ ⟨m₁, h₁, hexp, hn⟩
  by_cases hd : s.headDue now
  · obtain ⟨item, hh, hdue⟩ := hd
    obtain ⟨s', key, re, hturn, hre, hdl, h', hlt⟩ := processTimersTurn_root h₁ hh hdue n
    have hexp' := hexp.erase hre hdl hdue fun key' re' d' h' hd' => h₁.root_le hh h' hd'
    by_cases hmax : kMaxWorks ≤ n
    · -- the work that is one too many has been done
      have hcard := hexp'.le_card
      obtain rfl : n = kMaxWorks := Nat.le_antisymm hn hmax
      rw [if_pos hmax] at hturn
      rw [Nat.min_eq_left hcard]
      exact .inr ⟨s', hturn, _, h', hexp'⟩
    · rw [if_neg hmax] at hturn
      exact .inl ⟨(s', n + 1), hturn, ⟨_, h', hexp', Nat.lt_of_not_le hmax⟩, hlt⟩
  · have hall := hexp.eq_card (h₁.not_due hd)
    rw [Nat.min_eq_right (by simp only at hn hall; omega)]
    exact .inr ⟨s, processTimersTurn_idle hd n, m₁, h₁, hall ▸ hexp⟩

/-- **The batch is the declared one exactly when no more than `k_max_works` entries are due.**
The store stands for the map `m` before the call and `m'` after it, and for no other. -/
theorem process_timers_batch (strtod : Bytes → StrtodResult) (threads : Nat) (evs : List StoreEvent) :
    ∃ st outs m, run (storeStep strtod) { threads := threads } evs = some (st, outs) ∧
      st.Models ScoresOf m ∧ (∀ m₁, st.Models ScoresOf m₁ → m₁ = m) ∧
      ∀ now, ∃ st' m', processTimers now st = some st' ∧
        st'.Models ScoresOf m' ∧ (∀ m₁, st'.Models ScoresOf m₁ → m₁ = m') ∧
        (Expired now m m' (min kMaxWorks (m.dueKeys now).card) ↔
          (m.dueKeys now).card ≤ kMaxWorks) := by
  obtain ⟨st, outs, m, hrun, h⟩ := store_run_models mapReading_sound strtod evs
    (Store.models_empty threads)
  refine ⟨st, outs, m, hrun, h, fun m₁ h₁ => h.unique h₁, fun now => ?_⟩
  obtain ⟨st', hcall, m', h', hexp⟩ := processTimers_expired h now
  refine ⟨st', m', hcall, h', fun m₁ h₁ => h'.unique h₁, fun hbatch => ?_, fun hfew => ?_⟩
  · -- both counts are of the same entries
    have hcount := hbatch.count.symm.trans hexp.count
    omega
  · rw [Nat.min_eq_right (by omega)] at hexp
    rwa [Nat.min_eq_right hfew]

/-! ## 3. More entries than the limit

A store with so many entries is the result of a run of as many requests, and is reached by an
induction on their number. The keys are strings of one letter, each one longer than the one
before.
-/

/-- So many strings, each with a millisecond to live. -/
def shortLived : Nat → List StoreEvent
  | 0 => []
  | n + 1 => shortLived n ++
    [.execute 0 0 [bytes "set", List.replicate n 97, []],
      .execute 0 0 [bytes "pexpire", List.replicate n 97, bytes "1"]]

/-- The map has `n` keys, all of them strings with their deadline at 1. -/
structure ShortLived (m : RefStore Members) (n : Nat) : Prop where
  deadline : ∀ key re, m.lookup key = some re → re.deadline = some 1
  short : ∀ key ∈ m.keys, key.length < n
  count : m.keys.card = n

section ShortLived

variable {m : RefStore Members} {n : Nat}

theorem ShortLived.fresh (h : ShortLived m n) : List.replicate n 97 ∉ m.keys := by
  intro hmem
  have hlen := h.short _ hmem
  rw [List.length_replicate] at hlen
  omega

theorem ShortLived.not_due (h : ShortLived m n) : m.All fun _ re => re.due 0 = false := by
  intro key re hre
  refine RefEntry.not_due_iff.mpr fun d hd => ?_
  rw [h.deadline key re hre] at hd
  cases hd
  exact Nat.one_pos

theorem ShortLived.purge_insert (h : ShortLived m n) (key : Bytes) (v : RefValue Members) :
    RefStore.purge 0 (m.insert key ⟨v, none⟩) = m.insert key ⟨v, none⟩ :=
  purge_of_not_due (h.not_due.insert rfl)

theorem ShortLived.insert (h : ShortLived m n) :
    ShortLived (m.insert (List.replicate n 97) ⟨.str [], some 1⟩) (n + 1) := by
  have hdl : m.All fun _ re => re.deadline = some 1 := h.deadline
  refine ⟨hdl.insert rfl, fun key hkey => ?_, ?_⟩
  · rw [Finmap.mem_keys, Finmap.mem_insert] at hkey
    rcases hkey with rfl | hkey
    · rw [List.length_replicate]
      omega
    · exact Nat.lt_succ_of_lt (h.short key (Finmap.mem_keys.mpr hkey))
  · have hkeys : (m.insert (List.replicate n 97) ⟨.str [], some 1⟩).keys =
        Insert.insert (List.replicate n 97) m.keys := by
      ext key
      rw [Finmap.mem_keys, Finmap.mem_insert, Finset.mem_insert, Finmap.mem_keys]
    rw [hkeys, Finset.card_insert_of_notMem h.fresh, h.count]

end ShortLived

theorem shortLived_models (strtod : Bytes → StrtodResult) (threads : Nat) : ∀ n, ∃ st outs m,
    run (storeStep strtod) { threads := threads } (shortLived n) = some (st, outs) ∧
      st.Models ScoresOf m ∧ ShortLived m n := by
  intro n
  induction n with
  | zero =>
    refine ⟨_, [], ∅, rfl, Store.models_empty threads, RefStore.All.empty, ?_, rfl⟩
    intro key hkey
    rw [Finmap.keys_empty] at hkey
    exact absurd hkey (Finset.notMem_empty key)
  | succ n ih =>
    obtain ⟨st, outs, m, hrun, h, hs⟩ := ih
    -- the string
    obtain ⟨st₁, v₁, hset, -, h₁⟩ := execute_spec mapReading_sound strtod h 0 0
      [bytes "set", List.replicate n 97, []] []
    rw [purge_of_not_due hs.not_due, show dispatch [bytes "set", List.replicate n 97, []] =
      .set (List.replicate n 97) [] from rfl] at h₁
    simp only [refCommand, not_mem_keys_iff.mp hs.fresh] at h₁
    -- its deadline
    obtain ⟨st₂, v₂, hexp, -, h₂⟩ := execute_spec mapReading_sound strtod h₁ 0 0
      [bytes "pexpire", List.replicate n 97, bytes "1"] []
    rw [hs.purge_insert, show dispatch [bytes "pexpire", List.replicate n 97, bytes "1"] =
      .pexpire (List.replicate n 97) (bytes "1") from rfl] at h₂
    simp only [refCommand, refExpire, show str2int (bytes "1") = some 1 by decide,
      Finmap.lookup_insert, Finmap.insert_insert] at h₂
    rw [if_neg (by decide)] at h₂
    have hlast : run (storeStep strtod) st [.execute 0 0 [bytes "set", List.replicate n 97, []],
        .execute 0 0 [bytes "pexpire", List.replicate n 97, bytes "1"]] =
          some (st₂, [v₁.encode, v₂.encode]) := by
      simp only [run, storeStep, hset, hexp, Option.bind_eq_bind, Option.bind_some]
      rfl
    exact ⟨st₂, _, _, run_append hlast hrun, h₂, hs.insert⟩

/-- **A store with 2001 strings that are due loses all of them in one call.** -/
theorem process_timers_one_more :
    ∃ st outs m st' m', run (storeStep fun _ => ⟨none, 0, false⟩) { threads := 4 } (shortLived 2001) =
        some (st, outs) ∧ st.Models ScoresOf m ∧ (m.dueKeys 1).card = 2001 ∧
      processTimers 1 st = some st' ∧ st'.Models ScoresOf m' ∧ (m.keys \ m'.keys).card = 2001 ∧
      ¬Expired 1 m m' (min kMaxWorks (m.dueKeys 1).card) := by
  obtain ⟨st, outs, m, hrun, h, hs⟩ := shortLived_models (fun _ => ⟨none, 0, false⟩) 4 2001
  have hdue : (m.dueKeys 1).card = 2001 := by
    have hall : m.dueKeys 1 = m.keys := by
      refine Finset.filter_true_of_mem fun key hkey => ?_
      obtain ⟨re, hre⟩ := mem_keys_iff.mp hkey
      rw [hre, Option.any_some]
      exact RefEntry.due_iff.mpr ⟨1, hs.deadline key re hre, Nat.le_refl 1⟩
    rw [hall, hs.count]
  obtain ⟨st', hcall, m', h', hexp⟩ := processTimers_expired h 1
  have hcount := hexp.count
  rw [hdue, show min (kMaxWorks + 1) 2001 = 2001 by decide] at hcount
  refine ⟨st, outs, m, st', m', hrun, h, hdue, hcall, h', hcount, fun hbatch => ?_⟩
  have hcount' := hbatch.count
  rw [hdue, hcount] at hcount'
  exact absurd hcount' (by decide)

end ApexDB
