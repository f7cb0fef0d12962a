import ApexDB.Proof.Cluster
import ApexDB.Proof.PollTimeout

/-!
# Keys do not see each other

A command on a key reads and writes that key alone (`refCommand_local`, `refCommand_other`), in
the reference. In the store the keys share everything: one hash table that is rehashed piece by
piece, one heap of deadlines, the batches of `process_timers`, the queue of the pool. **What is
answered on some keys is what a store would answer that is asked about nothing else**: no
command on another key, no `keys`, no timer and no worker can be told from the answers.

Both stores follow the reference, so the proof is about two references that agree on the keys in
question, entries that are due aside (`Alike`).

The second store may have another number of threads, and no timers at all. That timers are left
out costs nothing, as a request removes what is due before it acts.
-/

set_option autoImplicit false

namespace ApexDB

open Lib

def StoreEvent.on (p : Bytes → Bool) : StoreEvent → Bool
  | .execute _ _ cmd => (dispatch cmd).key?.any p
  | _ => false

def answersOn (p : Bytes → Bool) (evs : List StoreEvent) (outs : List Bytes) : List Bytes :=
  ((evs.zip outs).filter fun e => e.1.on p).map Prod.snd

section Alike

variable {p : Bytes → Bool} {m m' : RefStore ZTree} {c : Nat}

/-- The keys have the same values at this time, where an entry that is due counts as none. -/
def Alike (p : Bytes → Bool) (c : Nat) (m m' : RefStore ZTree) : Prop :=
  ∀ k, p k = true → (m.purge c).lookup k = (m'.purge c).lookup k

theorem lookup_purge (m : RefStore ZTree) (k : Bytes) (t : Nat) :
    (m.purge t).lookup k = (m.lookup k).filter fun e => !e.due t :=
  RefStore.lookup_filter _ m k

theorem lookup_purge_later (m : RefStore ZTree) (k : Bytes) {t t' : Nat} (hle : t ≤ t') :
    (m.purge t').lookup k = ((m.purge t).lookup k).filter fun e => !e.due t' := by
  rw [← lookup_purge, ((faded_purge t m).mono hle).purge_eq]

theorem Alike.later {c' : Nat} (h : Alike p c m m') (hle : c ≤ c') : Alike p c' m m' := by
  intro k hk
  rw [lookup_purge_later m k hle, lookup_purge_later m' k hle, h k hk]

/-- A command on other keys, or on none. -/
theorem Alike.other (h : Alike p c m m') (strtod : Bytes → StrtodResult) {now clk : Nat} (hnow : c ≤ now)
    (hclk : now ≤ clk) {cmd : Command} (hoff : cmd.key?.any p = false) :
    Alike p clk (refCommand treeReading strtod clk (m.purge now) cmd).1 m' := by
  intro k hk
  have hkey : cmd.key? ≠ some k := by
    intro heq
    rw [heq, Option.any_some, hk] at hoff
    cases hoff
  rw [lookup_purge, refCommand_other treeReading strtod clk hkey, ← lookup_purge_later m k hclk]
  exact h.later (hnow.trans hclk) k hk

/-- **A command on one of the keys, at both**: the right answers are the same, and the keys
remain alike. -/
theorem Alike.same (h : Alike p c m m') (strtod : Bytes → StrtodResult) {now clk : Nat} (hnow : c ≤ now)
    {cmd : Command} (hon : cmd.key?.any p = true) :
    (refCommand treeReading strtod clk (m.purge now) cmd).2 =
      (refCommand treeReading strtod clk (m'.purge now) cmd).2 ∧
    Alike p clk (refCommand treeReading strtod clk (m.purge now) cmd).1
      (refCommand treeReading strtod clk (m'.purge now) cmd).1 := by
  obtain ⟨key, hkey, hp⟩ : ∃ key, cmd.key? = some key ∧ p key = true := by
    cases hk : cmd.key? with
    | none =>
      rw [hk] at hon
      cases hon
    | some key =>
      rw [hk] at hon
      exact ⟨key, rfl, hon⟩
  have hsame := h.later hnow
  obtain ⟨hreply, hwritten⟩ := refCommand_local treeReading strtod clk hkey (hsame key hp)
  refine ⟨hreply, fun k hk => ?_⟩
  rw [lookup_purge, lookup_purge]
  by_cases hkk : k = key
  · rw [hkk, hwritten]
  · rw [refCommand_frame treeReading strtod clk hkey hkk, refCommand_frame treeReading strtod clk hkey hkk,
      hsame k hk]

end Alike

/-! ## The runs

The induction is on the events of the longer run. An event on other keys moves the first
reference only, and its clock with it.
-/

/-- What is left of a run when some events are left out. -/
theorem ClockFrom.filter (q : StoreEvent → Bool) : ∀ {evs : List StoreEvent} {t t' : Nat}, ClockFrom t evs →
    t' ≤ t → ClockFrom t' (evs.filter q) := by
  intro evs
  induction evs with
  | nil => exact fun _ _ => trivial
  | cons ev evs ih =>
    intro t t' h hle
    cases hq : q ev with
    | true =>
      rw [List.filter_cons_of_pos hq]
      cases ev with
      | execute now clk cmd => exact ⟨⟨hle.trans h.1.1, h.1.2⟩, ih h.2 (Nat.le_refl _)⟩
      | processTimers now clk => exact ⟨⟨hle.trans h.1.1, h.1.2⟩, ih h.2 (Nat.le_refl _)⟩
      | work => exact ih h hle
    | false =>
      rw [List.filter_cons_of_neg (by rw [hq]; exact Bool.false_ne_true)]
      cases ev with
      | execute now clk cmd => exact ih h.2 (hle.trans (h.1.1.trans h.1.2))
      | processTimers now clk => exact ih h.2 (hle.trans h.1.1)
      | work => exact ih h hle

/-- **Two references, one with all events and one with those on the keys.** -/
theorem answersOn_eq (strtod : Bytes → StrtodResult) (p : Bytes → Bool) : ∀ {evs : List StoreEvent}
    {s u : RefState ZTree} {outs outs' : List Bytes}, ClockFrom s.clock evs → Alike p s.clock s.map u.map →
    (refMachine treeReading strtod).Admits s evs outs →
    (refMachine treeReading strtod).Admits u (evs.filter (·.on p)) outs' → answersOn p evs outs = outs' := by
  intro evs
  induction evs with
  | nil =>
    intro s u outs outs' _ _ h h'
    cases outs with
    | cons o outs => exact h.elim
    | nil =>
      cases outs' with
      | cons o' outs' => exact h'.elim
      | nil => rfl
  | cons ev evs ih =>
    intro s u outs outs' hclock halike h h'
    cases outs with
    | nil => exact h.elim
    | cons o outs =>
      obtain ⟨ho, h⟩ := h
      cases hon : ev.on p with
      | false =>
        rw [List.filter_cons_of_neg (by rw [hon]; exact Bool.false_ne_true)] at h'
        have hskip : answersOn p (ev :: evs) (o :: outs) = answersOn p evs outs := by
          simp only [answersOn, List.zip_cons_cons, List.filter_cons, hon, Bool.false_eq_true, if_false]
        rw [hskip]
        cases ev with
        | execute now clk cmd =>
          exact ih (s := ⟨(refCommand treeReading strtod clk (s.map.purge now) (dispatch cmd)).1, clk⟩) hclock.2
            (halike.other strtod hclock.1.1 hclock.1.2 hon) h h'
        | processTimers now clk => exact ih (s := ⟨s.map, clk⟩) hclock.2 (halike.later hclock.1.1) h h'
        | work => exact ih hclock halike h h'
      | true =>
        rw [List.filter_cons_of_pos hon] at h'
        have hkeep : answersOn p (ev :: evs) (o :: outs) = o :: answersOn p evs outs := by
          simp only [answersOn, List.zip_cons_cons, List.filter_cons, hon, if_true, List.map_cons]
        rw [hkeep]
        cases outs' with
        | nil => exact h'.elim
        | cons o' outs' =>
          obtain ⟨ho', h'⟩ := h'
          cases ev with
          | processTimers now clk => cases hon
          | work => cases hon
          | execute now clk cmd =>
            obtain ⟨v, rfl, hv⟩ := ho
            obtain ⟨w, rfl, hw⟩ := ho'
            obtain ⟨hreply, halike'⟩ := halike.same strtod hclock.1.1 hon
            have hkeys : dispatch cmd ≠ .keys := by
              intro hk
              rw [StoreEvent.on, hk] at hon
              cases hon
            rw [← hreply] at hw
            have hrest := ih (s := ⟨(refCommand treeReading strtod clk (s.map.purge now) (dispatch cmd)).1, clk⟩)
              (u := ⟨(refCommand treeReading strtod clk (u.map.purge now) (dispatch cmd)).1, clk⟩)
              hclock.2 halike' h h'
            rw [refCommand_one strtod clk _ hkeys hv hw, hrest]

/-- **The keys of a store do not interfere.** For every run of requests, timer passes and steps
of workers and every set of keys: the store answers the requests on these keys byte for byte as
a store does that receives only them, at the same times. -/
theorem keys_do_not_interfere (strtod : Bytes → StrtodResult) (threads threads' : Nat) (p : Bytes → Bool)
    (evs : List StoreEvent) (hclock : ClockFrom 0 evs) :
    ∃ st outs st' outs', run (storeStep strtod) { threads := threads } evs = some (st, outs) ∧
      run (storeStep strtod) { threads := threads' } (evs.filter (·.on p)) = some (st', outs') ∧
      answersOn p evs outs = outs' := by
  have hfollow : ∀ (threads : Nat) {evs : List StoreEvent}, ClockFrom 0 evs → ∃ st outs,
      run (storeStep strtod) { threads := threads } evs = some (st, outs) ∧
      (refMachine treeReading strtod).Admits ⟨∅, 0⟩ evs outs := by
    intro threads evs hclock
    obtain ⟨st, outs, hrun, hadm, -⟩ := (refMachine treeReading strtod).run_refines (R := Store.Follows (· = ·))
      (fun _ _ ev h hp => storeStep_refines treeReading_sound strtod h ev hp) evs _ ⟨∅, 0⟩
      (Store.follows_empty threads) (ClockFrom.legal treeReading strtod hclock)
    exact ⟨st, outs, hrun, hadm⟩
  obtain ⟨st, outs, hrun, hadm⟩ := hfollow threads hclock
  obtain ⟨st', outs', hrun', hadm'⟩ := hfollow threads' (hclock.filter (·.on p) (Nat.le_refl _))
  exact ⟨st, outs, st', outs', hrun, hrun', answersOn_eq strtod p hclock (fun _ _ => rfl) hadm hadm'⟩

/-- Two keys, one of which expires while the other is counted up. -/
def twoKeysRun : List StoreEvent :=
  [.execute 1 1 [bytes "incr", bytes "a"], .execute 2 2 [bytes "set", bytes "b", bytes "x"],
    .execute 3 3 [bytes "pexpire", bytes "b", bytes "4"], .execute 4 4 [bytes "incr", bytes "a"],
    .processTimers 9 9, .work, .execute 10 10 [bytes "get", bytes "b"], .execute 11 11 [bytes "incr", bytes "a"]]

theorem keys_do_not_interfere_two : ClockFrom 0 twoKeysRun ∧
    ∃ st outs st' outs', run (storeStep noScores) { threads := 4 } twoKeysRun = some (st, outs) ∧
      run (storeStep noScores) {} (twoKeysRun.filter (·.on (· == bytes "a"))) = some (st', outs') ∧
      answersOn (· == bytes "a") twoKeysRun outs = outs' ∧
      outs' = [(Value.int 1).encode, (Value.int 2).encode, (Value.int 3).encode] := by
  have hclock : ClockFrom 0 twoKeysRun := by
    simp [twoKeysRun, ClockFrom]
  obtain ⟨st, outs, st', outs', hrun, hrun', hsame⟩ :=
    keys_do_not_interfere noScores 4 0 (· == bytes "a") twoKeysRun hclock
  refine ⟨hclock, st, outs, st', outs', hrun, hrun', hsame, ?_⟩
  have houts := congrArg (Option.map Prod.snd) hrun'
  exact Option.some.inj (houts.symm.trans (by decide +kernel))

end ApexDB
