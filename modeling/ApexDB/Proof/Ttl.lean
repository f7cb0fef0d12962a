import ApexDB.Proof.Sharding

/-!
# Deadlines are exact

Two results about time. The loop at the head of `execute` removes exactly what is due, in every
reachable store and at every reading of the clock. And a deadline that `pexpire` sets is the sum
it is meant to be, stays what it is whatever happens to other keys and to the value of this one,
and is what `pttl` counts down to.

**One key is followed through a run**: it is there with its deadline (`Store.Armed`) or it is
not there (`Store.Lacks`), and one event is enough to know which events keep it so.
-/

set_option autoImplicit false

namespace ApexDB

open Lib

variable {Z : Type} {rel : ZTree → Z → Prop}

/-! ## 1. The loop at the head of `execute`

In terms of contents, for every reachable store. The reading of the clock is any number, also
one that is earlier than the last.
-/

theorem lookup_purge_iff {m : RefStore Z} {now : Nat} {key : Bytes} {re : RefEntry Z} :
    (m.purge now).lookup key = some re ↔
      m.lookup key = some re ∧ (re.deadline = none ∨ ∃ d, re.deadline = some d ∧ now < d) := by
  have hdue : re.due now = false ↔ re.deadline = none ∨ ∃ d, re.deadline = some d ∧ now < d := by
    rw [RefEntry.not_due_iff]
    cases re.deadline with
    | none => simp
    | some d => simp
  rw [RefStore.purge, RefStore.lookup_filter, Option.filter_eq_some_iff, ← hdue]
  simp

/-- **Expiry before a command is exact**: it ends, and leaves the entries without a deadline and
those whose deadline is yet to come, with their values and deadlines. What a store contains is
one map. -/
theorem expire_exact (strtod : Bytes → StrtodResult) (threads : Nat) (evs : List StoreEvent)
    (now : Nat) :
    ∃ st outs st' m m', run (storeStep strtod) { threads := threads } evs = some (st, outs) ∧
      expire now st = some st' ∧
      (∀ m₁, st.Models ScoresOf m₁ ↔ m₁ = m) ∧ (∀ m₁, st'.Models ScoresOf m₁ ↔ m₁ = m') ∧
      ∀ key re, m'.lookup key = some re ↔
        m.lookup key = some re ∧ (re.deadline = none ∨ ∃ d, re.deadline = some d ∧ now < d) := by
  obtain ⟨st, outs, m, hrun, h⟩ :=
    store_run_models mapReading_sound strtod evs (Store.models_empty threads)
  obtain ⟨st', hexp, h'⟩ := expire_spec h now
  refine ⟨st, outs, st', m, m.purge now, hrun, hexp, ?_, ?_, fun key re => lookup_purge_iff⟩
  · intro m₁
    exact ⟨h.unique, fun heq => heq ▸ h⟩
  · intro m₁
    exact ⟨h'.unique, fun heq => heq ▸ h'⟩

/-! ## 2. What a command does to the deadline of a key

Commands fall into those that set or end the deadline of a key, those that may create it, and
the rest. `incr`, `zadd` and `zrem` write the entry of the key in place, so its deadline stays.
-/

/-- The commands that give this key a value, a deadline or an end. -/
def Command.Retimes (key : Bytes) : Command → Prop
  | .set k _ => k = key
  | .del k => k = key
  | .persist k => k = key
  | .pexpire k _ => k = key
  | _ => False

/-- The commands that create this key if it is not there. -/
def Command.Creates (strtod : Bytes → StrtodResult) (key : Bytes) : Command → Prop
  | .set k _ => k = key
  | .incr k => k = key
  | .zadd k arg _ => k = key ∧ (str2dbl strtod arg).isSome
  | _ => False

section Key

variable (R : Reading Z) (strtod : Bytes → StrtodResult) (clk : Nat) {m : RefStore Z} {cmd : Command}
  {key : Bytes}

/-- **`incr`, `zadd` and `zrem` keep the deadline**, and so does everything about other keys. -/
theorem refCommand_keeps {v : RefValue Z} {d : Nat} (h : m.lookup key = some ⟨v, some d⟩)
    (hcmd : ¬cmd.Retimes key) :
    ∃ v', (refCommand R strtod clk m cmd).1.lookup key = some ⟨v', some d⟩ := by
  have hins : ∀ v', (m.insert key ⟨v', some d⟩).lookup key = some ⟨v', some d⟩ :=
    fun v' => Finmap.lookup_insert m
  by_cases hkey : cmd.key? = some key
  · cases cmd with
    | ping | keys | unknown => cases hkey
    | set | del | persist | pexpire => exact absurd (Option.some.inj hkey) hcmd
    | incr =>
      obtain rfl := Option.some.inj hkey
      simp only [refCommand, refIncr, h]
      cases v with
      | zset z => exact ⟨_, h⟩
      | str s =>
        dsimp only
        repeat' split
        · exact ⟨_, h⟩
        · exact ⟨_, h⟩
        · exact ⟨_, hins _⟩
    | zadd k arg name =>
      obtain rfl := Option.some.inj hkey
      simp only [refCommand, refZadd, h]
      cases v with
      | str s => cases str2dbl strtod arg <;> exact ⟨_, h⟩
      | zset z =>
        cases str2dbl strtod arg with
        | none => exact ⟨_, h⟩
        | some score => exact ⟨_, hins _⟩
    | zrem =>
      obtain rfl := Option.some.inj hkey
      simp only [refCommand, refZrem, h]
      cases v with
      | str s => exact ⟨_, h⟩
      | zset z =>
        dsimp only
        split
        · exact ⟨_, hins _⟩
        · exact ⟨_, h⟩
    | _ => exact ⟨_, h⟩
  · exact ⟨v, by rw [refCommand_other R strtod clk hkey, h]⟩

theorem refCommand_lacks (h : m.lookup key = none) (hcmd : ¬cmd.Creates strtod key) :
    (refCommand R strtod clk m cmd).1.lookup key = none := by
  by_cases hkey : cmd.key? = some key
  · cases cmd with
    | ping | keys | unknown => cases hkey
    | set | incr => exact absurd (Option.some.inj hkey) hcmd
    | del =>
      obtain rfl := Option.some.inj hkey
      exact Finmap.lookup_erase _ _
    | persist =>
      obtain rfl := Option.some.inj hkey
      simp only [refCommand, h]
    | pexpire =>
      obtain rfl := Option.some.inj hkey
      simp only [refCommand, refExpire, h]
      split <;> exact h
    | zadd k arg name =>
      obtain rfl := Option.some.inj hkey
      cases harg : str2dbl strtod arg with
      | none => simp only [refCommand, refZadd, harg, h]
      | some score => exact absurd ⟨rfl, by rw [harg]; rfl⟩ hcmd
    | zrem =>
      obtain rfl := Option.some.inj hkey
      simp only [refCommand, refZrem, h]
    | _ => exact h
  · rw [refCommand_other R strtod clk hkey, h]

end Key

/-! ## 3. One key through a run

Both states are about the store and not about one map that it stands for, so they hold for a run
of the program. Each is kept by every event that is not one of the exceptions.
-/

def Store.Armed (st : Store) (key : Bytes) (d : Nat) : Prop :=
  ∃ m : RefStore ZTree, st.Models (· = ·) m ∧ ∃ v, m.lookup key = some ⟨v, some d⟩

def Store.Lacks (st : Store) (key : Bytes) : Prop :=
  ∃ m : RefStore ZTree, st.Models (· = ·) m ∧ m.lookup key = none

/-- The time at which an event looks for deadlines that are over. -/
def StoreEvent.now : StoreEvent → Nat
  | .execute now _ _ => now
  | .processTimers now _ => now
  | .work => 0

def StoreEvent.Retimes (key : Bytes) : StoreEvent → Prop
  | .execute _ _ cmd => (dispatch cmd).Retimes key
  | _ => False

def StoreEvent.Creates (strtod : Bytes → StrtodResult) (key : Bytes) : StoreEvent → Prop
  | .execute _ _ cmd => (dispatch cmd).Creates strtod key
  | _ => False

variable (strtod : Bytes → StrtodResult) {st : Store} {key : Bytes} {d : Nat}

theorem Faded.lookup_armed {m m' : RefStore Z} {now : Nat} {v : RefValue Z} (hf : Faded now m m')
    (h : m.lookup key = some ⟨v, some d⟩) (hnow : now < d) : m'.lookup key = some ⟨v, some d⟩ := by
  rcases hf key with heq | ⟨-, re, hre, hdue⟩
  · rw [heq, h]
  · rw [h] at hre
    cases hre
    exact absurd (of_decide_eq_true hdue) (Nat.not_le.mpr hnow)

theorem Faded.lookup_none {m m' : RefStore Z} {now : Nat} (hf : Faded now m m')
    (h : m.lookup key = none) : m'.lookup key = none := by
  rcases hf key with heq | ⟨hnone, -⟩
  · rw [heq, h]
  · exact hnone

/-- **An event keeps the deadline** if it comes before it and does not change it on purpose. -/
theorem Store.Armed.step (h : st.Armed key d) {ev : StoreEvent} (hev : ¬ev.Retimes key)
    (hnow : ev.now < d) : ∃ st' o, storeStep strtod st ev = some (st', o) ∧ st'.Armed key d := by
  obtain ⟨m, h, v, hv⟩ := h
  cases ev with
  | execute now clk cmd =>
    obtain ⟨st', r, hrun, -, h'⟩ := execute_spec treeReading_sound strtod h now clk cmd []
    exact ⟨st', _, hrun, _, h', refCommand_keeps treeReading strtod clk
      ((faded_purge now m).lookup_armed hv hnow) hev⟩
  | processTimers now clk =>
    obtain ⟨st', hrun, m', h', hf, -⟩ := processTimers_spec h now
    exact ⟨st', [], by simp [storeStep, hrun], m', h', v, hf.lookup_armed hv hnow⟩
  | work =>
    obtain ⟨st', hrun, h'⟩ := work_spec h
    exact ⟨st', [], by simp [storeStep, hrun], m, h', v, hv⟩

theorem Store.Armed.processTimers (h : st.Armed key d) (now : Nat) :
    ∃ st', ApexDB.processTimers now st = some st' ∧ (st'.Armed key d ∨ st'.Lacks key ∧ d ≤ now) := by
  obtain ⟨m, h, v, hv⟩ := h
  obtain ⟨st', hrun, m', h', hf, -⟩ := processTimers_spec h now
  refine ⟨st', hrun, ?_⟩
  rcases hf key with heq | ⟨hnone, re, hre, hdue⟩
  · exact .inl ⟨m', h', v, by rw [heq, hv]⟩
  · rw [hv] at hre
    cases hre
    exact .inr ⟨⟨m', h', hnone⟩, of_decide_eq_true hdue⟩

/-- **An event does not bring a key back** unless it creates it. -/
theorem Store.Lacks.step (h : st.Lacks key) {ev : StoreEvent} (hev : ¬ev.Creates strtod key) :
    ∃ st' o, storeStep strtod st ev = some (st', o) ∧ st'.Lacks key := by
  obtain ⟨m, h, hm⟩ := h
  cases ev with
  | execute now clk cmd =>
    obtain ⟨st', r, hrun, -, h'⟩ := execute_spec treeReading_sound strtod h now clk cmd []
    exact ⟨st', _, hrun, _, h',
      refCommand_lacks treeReading strtod clk ((faded_purge now m).lookup_none hm) hev⟩
  | processTimers now clk =>
    obtain ⟨st', hrun, m', h', hf, -⟩ := processTimers_spec h now
    exact ⟨st', [], by simp [storeStep, hrun], m', h', hf.lookup_none hm⟩
  | work =>
    obtain ⟨st', hrun, h'⟩ := work_spec h
    exact ⟨st', [], by simp [storeStep, hrun], m, h', hm⟩

theorem lookup_purge_of_le {m : RefStore Z} {now : Nat} {v : RefValue Z}
    (h : m.lookup key = some ⟨v, some d⟩) (hnow : d ≤ now) : (m.purge now).lookup key = none := by
  cases hl : (m.purge now).lookup key with
  | none => rfl
  | some re =>
    obtain ⟨hre, hdl⟩ := lookup_purge_iff.mp hl
    rw [h] at hre
    cases hre
    rcases hdl with hdl | ⟨d', hdl, hlt⟩
    · cases hdl
    · cases hdl
      omega

/-- A request at or after the deadline leaves the key gone. -/
theorem Store.Armed.step_late (h : st.Armed key d) {now : Nat} (hnow : d ≤ now) (clk : Nat)
    {cmd : List Bytes} (hcmd : ¬(dispatch cmd).Creates strtod key) :
    ∃ st' o, storeStep strtod st (.execute now clk cmd) = some (st', o) ∧ st'.Lacks key := by
  obtain ⟨m, h, v, hv⟩ := h
  obtain ⟨st', r, hrun, -, h'⟩ := execute_spec treeReading_sound strtod h now clk cmd []
  exact ⟨st', _, hrun, _, h', refCommand_lacks treeReading strtod clk (lookup_purge_of_le hv hnow) hcmd⟩

/-- What `pttl` answers, by what is left of the map. -/
theorem pttl_reply {m : RefStore ZTree} (h : st.Models (· = ·) m) (now clk : Nat) (key : Bytes) :
    ∃ st' r, storeStep strtod st (.execute now clk [bytes "pttl", key]) =
        some (st', (Value.int r).encode) ∧
      ((m.purge now).lookup key = none → r = -2) ∧
      ∀ v d, (m.purge now).lookup key = some ⟨v, some d⟩ → r = remaining clk d := by
  obtain ⟨st', r, hrun, hr, -⟩ :=
    execute_spec treeReading_sound strtod h now clk [bytes "pttl", key] []
  rw [show dispatch [bytes "pttl", key] = .pttl key from rfl] at hr
  refine ⟨st', _, by rw [storeStep, hrun, show r = _ from hr]; rfl, ?_, ?_⟩
  · intro hnone
    rw [hnone]
  · intro v d hsome
    rw [hsome]

theorem Store.Armed.pttl (h : st.Armed key d) {now : Nat} (hnow : now < d) (clk : Nat) :
    ∃ st', storeStep strtod st (.execute now clk [bytes "pttl", key]) =
      some (st', (Value.int (remaining clk d)).encode) := by
  obtain ⟨m, h, v, hv⟩ := h
  obtain ⟨st', r, hrun, -, hr⟩ := pttl_reply strtod h now clk key
  rw [hr v d ((faded_purge now m).lookup_armed hv hnow)] at hrun
  exact ⟨st', hrun⟩

theorem Store.Lacks.pttl (h : st.Lacks key) (now clk : Nat) :
    ∃ st', storeStep strtod st (.execute now clk [bytes "pttl", key]) =
      some (st', (Value.int (-2)).encode) := by
  obtain ⟨m, h, hm⟩ := h
  obtain ⟨st', r, hrun, hr, -⟩ := pttl_reply strtod h now clk key
  rw [hr ((faded_purge now m).lookup_none hm)] at hrun
  exact ⟨st', hrun⟩

theorem Store.Armed.pttl_late (h : st.Armed key d) {now : Nat} (hnow : d ≤ now) (clk : Nat) :
    ∃ st', storeStep strtod st (.execute now clk [bytes "pttl", key]) =
      some (st', (Value.int (-2)).encode) := by
  obtain ⟨m, h, v, hv⟩ := h
  obtain ⟨st', r, hrun, hr, -⟩ := pttl_reply strtod h now clk key
  rw [hr (lookup_purge_of_le hv hnow)] at hrun
  exact ⟨st', hrun⟩

/-! ## 4. Runs

The clock does not go back, so a run has a part before the deadline and a part from it on. In
the second part the timers may have been faster than the first request, which then makes no
difference.
-/

/-- No event looks ahead of a later request. -/
theorem ClockFrom.now_le {now clk : Nat} {cmd : List Bytes} : ∀ {evs : List StoreEvent} {t : Nat},
    ClockFrom t (evs ++ [.execute now clk cmd]) →
      (t ≤ now ∧ now ≤ clk) ∧ ∀ ev ∈ evs, ev.now ≤ now := by
  intro evs
  induction evs with
  | nil => intro t h; exact ⟨h.1, by simp⟩
  | cons ev evs ih =>
    intro t h
    cases ev with
    | execute now₁ clk₁ cmd₁ =>
      obtain ⟨hle, hrest⟩ := ih h.2
      refine ⟨by have := h.1; omega, fun ev hev => ?_⟩
      rcases List.mem_cons.mp hev with rfl | hev
      · exact h.1.2.trans hle.1
      · exact hrest ev hev
    | processTimers now₁ clk₁ =>
      obtain ⟨hle, hrest⟩ := ih h.2
      refine ⟨by have := h.1; omega, fun ev hev => ?_⟩
      rcases List.mem_cons.mp hev with rfl | hev
      · exact h.1.2.trans hle.1
      · exact hrest ev hev
    | work =>
      obtain ⟨hle, hrest⟩ := ih h
      refine ⟨hle, fun ev hev => ?_⟩
      rcases List.mem_cons.mp hev with rfl | hev
      · exact Nat.zero_le _
      · exact hrest ev hev

/-- Until the first request at or after the deadline, the key has its deadline or the timers
have removed it. In the second case the clock has passed the deadline, so that no request comes
any more. -/
theorem armed_run {tail : List StoreEvent} : ∀ {evs : List StoreEvent} {t : Nat} {st : Store},
    ClockFrom t (evs ++ tail) → st.Armed key d ∨ st.Lacks key ∧ d ≤ t →
    (∀ ev ∈ evs, ¬ev.Retimes key) → (∀ now clk cmd, .execute now clk cmd ∈ evs → now < d) →
    ∃ st' outs, run (storeStep strtod) st evs = some (st', outs) ∧ (st'.Armed key d ∨ st'.Lacks key) := by
  intro evs
  induction evs with
  | nil => intro t st _ h _ _; exact ⟨st, [], rfl, h.imp_right And.left⟩
  | cons ev evs ih =>
    intro t st hclock h hev hearly
    -- one event, and the clock after it
    obtain ⟨st₁, o, t₁, hstep, hclock₁, h₁⟩ : ∃ st₁ o t₁, storeStep strtod st ev = some (st₁, o) ∧
        ClockFrom t₁ (evs ++ tail) ∧ (st₁.Armed key d ∨ st₁.Lacks key ∧ d ≤ t₁) := by
      cases ev with
      | execute now clk cmd =>
        have hnow := hearly now clk cmd List.mem_cons_self
        have hle := hclock.1.1
        rcases h with h | ⟨-, hpast⟩
        · obtain ⟨st₁, o, hstep, h₁⟩ := h.step strtod (hev _ List.mem_cons_self) hnow
          exact ⟨st₁, o, clk, hstep, hclock.2, .inl h₁⟩
        · omega
      | processTimers now clk =>
        rcases h with h | ⟨h, hpast⟩
        · obtain ⟨st₁, hrun, h₁⟩ := h.processTimers now
          refine ⟨st₁, [], clk, by simp [storeStep, hrun], hclock.2, h₁.imp_right ?_⟩
          intro hgone
          exact ⟨hgone.1, hgone.2.trans hclock.1.2⟩
        · obtain ⟨st₁, o, hstep, h₁⟩ :=
            h.step strtod (show ¬(StoreEvent.processTimers now clk).Creates strtod key from not_false)
          exact ⟨st₁, o, clk, hstep, hclock.2, .inr ⟨h₁, hpast.trans hclock.1.1⟩⟩
      | work =>
        rcases h with ⟨m, h, v, hv⟩ | ⟨⟨m, h, hm⟩, hpast⟩
        · obtain ⟨st₁, hrun, h₁⟩ := work_spec h
          exact ⟨st₁, [], t, by simp [storeStep, hrun], hclock, .inl ⟨m, h₁, v, hv⟩⟩
        · obtain ⟨st₁, hrun, h₁⟩ := work_spec h
          exact ⟨st₁, [], t, by simp [storeStep, hrun], hclock, .inr ⟨⟨m, h₁, hm⟩, hpast⟩⟩
    obtain ⟨st₂, outs, hrun, h₂⟩ := ih hclock₁ h₁
      (fun ev' hev' => hev ev' (List.mem_cons_of_mem _ hev'))
      fun now clk cmd hmem => hearly now clk cmd (List.mem_cons_of_mem _ hmem)
    exact ⟨st₂, o :: outs, by simp [run, hstep, hrun], h₂⟩

/-- The heap holds this deadline for the entry of this key. -/
def Store.DeadlineOf (st : Store) (key : Bytes) (d : Nat) : Prop :=
  ∃ n ∈ st.db.nodes, ∃ ent i x, st.ents.read n.owner = some ent ∧ ent.key = key ∧
    st.refs n.owner = some i ∧ st.heap[i]? = some x ∧ x.val = d

theorem Store.Armed.deadlineOf (h : st.Armed key d) : st.DeadlineOf key d := by
  obtain ⟨m, ⟨rows, h, hc⟩, v, hv⟩ := h
  obtain ⟨r, hr, hk, hre⟩ := (hc key _).mp hv
  obtain ⟨⟨ent, hread, hent, -⟩, hdl⟩ := h.shows r hr
  rw [hre] at hdl
  obtain ⟨i, hi, hx⟩ := Option.bind_eq_some_iff.mp hdl
  obtain ⟨x, hx, hval⟩ := Option.map_eq_some_iff.mp hx
  exact ⟨_, h.index.node_mem (List.mem_map_of_mem hr), ent, i, x, hread, hent.trans hk, hi, hx, hval⟩

def askAfter (strtod : Bytes → StrtodResult) (st : Store) (evs : List StoreEvent) (now clk : Nat)
    (cmd : List Bytes) : Option Bytes := do
  let (st, _) ← run (storeStep strtod) st evs
  let (_, o) ← storeStep strtod st (.execute now clk cmd)
  return o

theorem askAfter_eq {evs : List StoreEvent} {outs : List Bytes} {st₁ st₂ : Store} {now clk : Nat}
    {cmd : List Bytes} {o : Bytes} (hrun : run (storeStep strtod) st evs = some (st₁, outs))
    (hstep : storeStep strtod st₁ (.execute now clk cmd) = some (st₂, o)) :
    askAfter strtod st evs now clk cmd = some o := by
  simp [askAfter, hrun, hstep]

/-- **Before the deadline `pttl` counts down to it.** -/
theorem Store.Armed.askAfter (h : st.Armed key d) {evs : List StoreEvent} {t now clk : Nat}
    (hclock : ClockFrom t (evs ++ [.execute now clk [bytes "pttl", key]]))
    (hev : ∀ ev ∈ evs, ¬ev.Retimes key) (hnow : now < d) :
    ApexDB.askAfter strtod st evs now clk [bytes "pttl", key] =
      some (Value.int (remaining clk d)).encode := by
  have hearly : ∀ ev ∈ evs, ¬ev.Retimes key ∧ ev.now < d := fun ev hmem =>
    ⟨hev ev hmem, Nat.lt_of_le_of_lt (hclock.now_le.2 ev hmem) hnow⟩
  obtain ⟨st₁, outs, hrun, h₁⟩ := run_inv (storeStep strtod) (fun st => st.Armed key d)
    (fun ev => ¬ev.Retimes key ∧ ev.now < d) (fun st ev hP h => h.step strtod hP.1 hP.2) evs st hearly h
  obtain ⟨st₂, hstep⟩ := h₁.pttl strtod hnow clk
  exact askAfter_eq strtod hrun hstep

/-- **From the first request at or after the deadline on, the key is gone** until it is created.
-/
theorem Store.Armed.askAfter_late (h : st.Armed key d) {evs late : List StoreEvent} {t now clk : Nat}
    (hclock : ClockFrom t (evs ++ late ++ [.execute now clk [bytes "pttl", key]]))
    (hev : ∀ ev ∈ evs, ¬ev.Retimes key) (hearly : ∀ now clk cmd, .execute now clk cmd ∈ evs → now < d)
    (hfirst : ∀ ev, (late ++ [StoreEvent.execute now clk [bytes "pttl", key]]).head? = some ev →
      ∃ now clk cmd, ev = .execute now clk cmd ∧ d ≤ now)
    (hlate : ∀ ev ∈ late, ¬ev.Creates strtod key) :
    ApexDB.askAfter strtod st (evs ++ late) now clk [bytes "pttl", key] =
      some (Value.int (-2)).encode := by
  rw [List.append_assoc] at hclock
  obtain ⟨st₁, outs, hrun, h₁⟩ := armed_run strtod hclock (.inl h) hev hearly
  cases late with
  | nil =>
    rw [List.append_nil]
    obtain ⟨_, _, _, heq, hnow⟩ := hfirst _ rfl
    cases heq
    rcases h₁ with h₁ | h₁
    · obtain ⟨st₂, hstep⟩ := h₁.pttl_late strtod hnow clk
      exact askAfter_eq strtod hrun hstep
    · obtain ⟨st₂, hstep⟩ := h₁.pttl strtod now clk
      exact askAfter_eq strtod hrun hstep
  | cons ev late =>
    obtain ⟨now₁, clk₁, cmd₁, rfl, hnow₁⟩ := hfirst ev rfl
    obtain ⟨st₂, o, hstep, h₂⟩ : ∃ st₂ o, storeStep strtod st₁ (.execute now₁ clk₁ cmd₁) =
        some (st₂, o) ∧ st₂.Lacks key := by
      have hcmd := hlate _ List.mem_cons_self
      rcases h₁ with h₁ | h₁
      · exact h₁.step_late strtod hnow₁ clk₁ hcmd
      · exact h₁.step strtod hcmd
    obtain ⟨st₃, outs', hrun', h₃⟩ := run_inv (storeStep strtod) (fun st => st.Lacks key)
      (fun ev => ¬ev.Creates strtod key) (fun st ev hP h => h.step strtod hP) late st₂
      (fun ev hmem => hlate ev (List.mem_cons_of_mem _ hmem)) h₂
    have hall : run (storeStep strtod) st₁ (.execute now₁ clk₁ cmd₁ :: late) = some (st₃, o :: outs') := by
      simp [run, hstep, hrun']
    obtain ⟨st₄, hstep'⟩ := h₃.pttl strtod now clk
    exact askAfter_eq strtod (run_append hall hrun) hstep'

/-! ## 5. The sum

What `str2int` reads is an `int64_t`, so a duration is below `2 ^ 63`, and with a clock below `2
^ 63` the sum does not wrap.
-/

theorem fromChars_range {s : Bytes} {v : Int} {n : Nat} (h : fromChars s = some (v, n)) :
    -2 ^ 63 ≤ v ∧ v < 2 ^ 63 := by
  unfold fromChars at h
  dsimp only at h
  repeat' split at h
  all_goals first | cases h; omega | cases h

theorem str2int_range {s : Bytes} {v : Int} (h : str2int s = some v) : -2 ^ 63 ≤ v ∧ v < 2 ^ 63 := by
  unfold str2int at h
  repeat' split at h
  all_goals first | cases h; exact fromChars_range ‹_› | cases h

/-- `pexpire` answers whether the key is there, and then sets the deadline that it is meant to
set. -/
theorem pexpire_armed {m : RefStore ZTree} (h : st.Models (· = ·) m) (now : Nat) {clk : Nat}
    (key : Bytes) {arg : Bytes} {ttl : Int} (hclk : clk < 2 ^ 63) (harg : str2int arg = some ttl) (hpos : 0 < ttl) :
    ∃ st₁ st' o, expire now st = some st₁ ∧
      storeStep strtod st (.execute now clk [bytes "pexpire", key, arg]) = some (st', o) ∧
      (¬st₁.HasKey key → o = (Value.int 0).encode) ∧
      (st₁.HasKey key → o = (Value.int 1).encode ∧ st'.Armed key (clk + ttl.toNat)) := by
  obtain ⟨st₁, hexp, h₁⟩ := expire_spec h now
  obtain ⟨st', r, hrun, hr, h'⟩ :=
    execute_spec treeReading_sound strtod h now clk [bytes "pexpire", key, arg] []
  rw [show dispatch [bytes "pexpire", key, arg] = .pexpire key arg from rfl] at hr h'
  refine ⟨st₁, st', r.encode, hexp, hrun, fun habsent => ?_, fun hpresent => ?_⟩
  · rw [h₁.hasKey_iff, not_not] at habsent
    simp only [refCommand, refExpire, harg, habsent] at hr
    rw [show r = .int 0 from hr]
  · obtain ⟨re, hl⟩ := Option.ne_none_iff_exists'.mp ((h₁.hasKey_iff key).mp hpresent)
    have hrange := str2int_range harg
    have hsum : treeReading.deadline clk ttl.toNat = clk + ttl.toNat :=
      Nat.mod_eq_of_lt (by omega)
    simp only [refCommand, refExpire, harg, hl, if_neg (Int.not_le.mpr hpos), hsum] at hr h'
    exact ⟨by rw [show r = .int 1 from hr], _, h', re.value, Finmap.lookup_insert _⟩

/-- **TTL arithmetic is exact.** `pexpire` with a positive duration replies 1 if the key is
there when the expired keys are gone, and 0 if it is not. In the first case the duration is
added to the clock without wrapping. Until a request sets, deletes, persists or expires the key
anew, `pttl` counts down to that sum and is never negative, and from the first request at or
after it the key is gone until it is created again. -/
theorem ttl_exact (strtod : Bytes → StrtodResult) (threads : Nat) (pre : List StoreEvent)
    (now clk : Nat) (key arg : Bytes) (ttl : Int) (hclk : clk < 2 ^ 63)
    (harg : str2int arg = some ttl) (hpos : 0 < ttl) :
    ∃ st₀ outs st₁ st o, run (storeStep strtod) { threads := threads } pre = some (st₀, outs) ∧
      expire now st₀ = some st₁ ∧
      storeStep strtod st₀ (.execute now clk [bytes "pexpire", key, arg]) = some (st, o) ∧
      (¬st₁.HasKey key → o = (Value.int 0).encode) ∧
      (st₁.HasKey key → o = (Value.int 1).encode ∧
        st.DeadlineOf key (clk + ttl.toNat) ∧
        (∀ (evs : List StoreEvent) (now' clk' : Nat),
          ClockFrom clk (evs ++ [.execute now' clk' [bytes "pttl", key]]) →
          (∀ ev ∈ evs, ¬ev.Retimes key) → now' < clk + ttl →
          askAfter strtod st evs now' clk' [bytes "pttl", key] =
              some (Value.int (max 0 (clk + ttl - clk'))).encode ∧
            max 0 (clk + ttl - clk') < 2 ^ 63) ∧
        ∀ (evs late : List StoreEvent) (now' clk' : Nat),
          ClockFrom clk (evs ++ late ++ [.execute now' clk' [bytes "pttl", key]]) →
          (∀ ev ∈ evs, ¬ev.Retimes key) →
          (∀ (now₁ clk₁ : Nat) cmd, .execute now₁ clk₁ cmd ∈ evs → now₁ < clk + ttl) →
          (∀ ev, (late ++ [StoreEvent.execute now' clk' [bytes "pttl", key]]).head? = some ev →
            ∃ (now₁ clk₁ : Nat) (cmd : List Bytes), ev = .execute now₁ clk₁ cmd ∧ clk + ttl ≤ now₁) →
          (∀ ev ∈ late, ¬ev.Creates strtod key) →
          askAfter strtod st (evs ++ late) now' clk' [bytes "pttl", key] =
            some (Value.int (-2)).encode) := by
  obtain ⟨st₀, outs, m, hrun, hm⟩ :=
    store_run_models treeReading_sound strtod pre (Store.models_empty threads)
  obtain ⟨st₁, st, o, hexp, hstep, habsent, hpresent⟩ := pexpire_armed strtod hm now key hclk harg hpos
  have hsum : ((clk + ttl.toNat : Nat) : Int) = clk + ttl := by omega
  refine ⟨st₀, outs, st₁, st, o, hrun, hexp, hstep, habsent, fun hkey => ?_⟩
  obtain ⟨ho, harmed⟩ := hpresent hkey
  refine ⟨ho, harmed.deadlineOf, ?_, ?_⟩
  · intro evs now' clk' hclock hev hnow
    obtain ⟨hfrom, hlast⟩ := hclock.now_le.1
    have hrem : remaining clk' (clk + ttl.toNat) = max 0 (clk + ttl - clk') := by
      unfold remaining
      split
      · omega
      · omega
    rw [← hrem]
    refine ⟨harmed.askAfter strtod hclock hev (by omega), ?_⟩
    have hrange := str2int_range harg
    rw [hrem]
    omega
  · intro evs late now' clk' hclock hev hearly hfirst hlate
    apply harmed.askAfter_late strtod hclock hev _ _ hlate
    · intro now₁ clk₁ cmd hmem
      have := hearly now₁ clk₁ cmd hmem
      omega
    · intro ev hev'
      obtain ⟨now₁, clk₁, cmd, heq, hle⟩ := hfirst ev hev'
      exact ⟨now₁, clk₁, cmd, heq, by omega⟩

/-- Ten milliseconds for a key, a look after one of them and one after the last. -/
theorem ttl_exact_ten : ∃ st₀ outs st,
    run (storeStep fun _ => ⟨none, 0, false⟩) { threads := 4 }
      [.execute 5 5 [bytes "set", bytes "k", bytes "v"]] = some (st₀, outs) ∧
    storeStep (fun _ => ⟨none, 0, false⟩) st₀
      (.execute 5 6 [bytes "pexpire", bytes "k", bytes "10"]) = some (st, (Value.int 1).encode) ∧
    st.DeadlineOf (bytes "k") 16 ∧
    askAfter (fun _ => ⟨none, 0, false⟩) st [] 7 7 [bytes "pttl", bytes "k"] =
      some (Value.int 9).encode ∧
    askAfter (fun _ => ⟨none, 0, false⟩) st ([] ++ []) 16 16 [bytes "pttl", bytes "k"] =
      some (Value.int (-2)).encode := by
  obtain ⟨st₀, outs, st₁, st, o, hpre, hexp, hstep, -, hrest⟩ := ttl_exact (fun _ => ⟨none, 0, false⟩) 4
    [.execute 5 5 [bytes "set", bytes "k", bytes "v"]] 5 6 (bytes "k") (bytes "10") 10 (by decide)
    (by decide) (by decide)
  cases hpre
  cases hexp
  obtain ⟨rfl, hdl, hbefore, hafter⟩ := hrest ⟨_, List.mem_singleton.mpr rfl, _, rfl, rfl⟩
  refine ⟨_, _, st, rfl, hstep, hdl, ?_, ?_⟩
  · exact (hbefore [] 7 7 (by simp [ClockFrom]) (by simp) (by decide)).1
  · apply hafter [] [] 16 16 (by simp [ClockFrom]) (by simp) (by simp) _ (by simp)
    intro ev hev
    exact ⟨16, 16, _, (Option.some.inj hev).symm, by decide⟩

end ApexDB
