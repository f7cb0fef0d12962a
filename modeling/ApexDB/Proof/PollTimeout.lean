import Mathlib.Order.Lattice.Nat
import ApexDB.Proof.Disposal
import ApexDB.Proof.EventLoop
import ApexDB.Proof.Ttl
import ApexDB.Server

/-!
# The timeout of `poll`

The loop may sleep until the first thing it has to do: a key that expires, or a connection that
has been idle for too long. It looks at **one deadline of each kind, the root of the heap and
the head of the idle list**, and both are the earliest of theirs in every state it can come to
(`nextTimerMs_spec`, `idleDeadline_spec`).

The largest `uint64_t` stands for no deadline. No deadline is that large as long as the clock is
below `2 ^ 63`: a time to live is below `2 ^ 63` as well, and the clock has not gone back since
it was set (`ServedStore.Timely`).
-/

set_option autoImplicit false

namespace ApexDB

open Lib

variable {Z : Type} {R : Reading Z} {rel : ZTree → Z → Prop}

/-! ## 1. How late a deadline can be

A deadline is the sum of a reading of the clock and a time to live. Commands other than
`pexpire` move deadlines around or drop them, but make none.
-/

/-- No deadline of the map is later than this. -/
def RefStore.DueBy (t : Nat) (m : RefStore Z) : Prop :=
  m.All fun _ re => ∀ d, re.deadline = some d → d ≤ t

section DueBy

variable {m m' : RefStore Z} {t : Nat}

theorem RefStore.DueBy.mono {t' : Nat} (h : m.DueBy t) (hle : t ≤ t') : m.DueBy t' :=
  fun key re hre d hd => Nat.le_trans (h key re hre d hd) hle

theorem RefStore.DueBy.revalue {key : Bytes} {v : RefValue Z} {d : Option Nat} (h : m.DueBy t)
    (hl : m.lookup key = some ⟨v, d⟩) (v' : RefValue Z) : RefStore.DueBy t (m.insert key ⟨v', d⟩) := by
  have hd := h key ⟨v, d⟩ hl
  exact h.insert hd

theorem RefStore.DueBy.unset (h : m.DueBy t) (key : Bytes) (v : RefValue Z) :
    RefStore.DueBy t (m.insert key ⟨v, none⟩) :=
  h.insert fun d hd => by cases hd

/-- **Only `pexpire` sets a deadline.** The others keep the one there is or leave the key
without. -/
theorem RefStore.DueBy.command (h : m.DueBy t) (strtod : Bytes → StrtodResult) {clk : Nat}
    (hnew : ∀ ttl : Int, ttl < 2 ^ 63 → R.deadline clk ttl.toNat ≤ t) (c : Command) :
    (refCommand R strtod clk m c).1.DueBy t := by
  cases c with
  | persist key =>
    simp only [refCommand]
    split
    · exact h.unset key _
    · exact h
  | incr key =>
    simp only [refCommand, refIncr]
    split
    · exact h.unset key _
    · exact h
    · rename_i s d hl
      repeat' split
      · exact h
      · exact h
      · exact h.revalue hl _
  | set key val =>
    simp only [refCommand]
    split
    · exact h
    · exact h.unset key _
  | del key => exact h.erase key
  | pexpire key arg =>
    simp only [refCommand, refExpire]
    split
    · exact h
    · rename_i ttl harg
      split
      · exact h
      · split
        · exact h.erase key
        · refine h.insert fun d hd => ?_
          cases hd
          exact hnew ttl (str2int_range harg).2
  | zadd key arg name =>
    simp only [refCommand, refZadd]
    split
    · exact h
    · split
      · exact h.unset key _
      · exact h
      · rename_i z d hl
        exact h.revalue hl _
  | zrem key name =>
    simp only [refCommand, refZrem]
    split
    · exact h
    · exact h
    · rename_i z d hl
      split
      · exact h.revalue hl _
      · exact h
  | _ => exact h

end DueBy

/-! ## 2. The store behind the event loop

Between two calls of the loop the workers may be at any work that was handed over, and the clock
is read anew in each call. The invariant of the store and the bound for its deadlines are kept
together.
-/

/-- The works that are done leave the map as it is, however many there are. -/
theorem worksDone_models {m : RefStore Z} : ∀ (works : List EntryId) {st : Store}, st.Models rel m →
    ∃ st', works.foldlM workDone st = some st' ∧ st'.Models rel m := by
  intro works
  induction works with
  | nil =>
    intro st h
    exact ⟨st, rfl, h⟩
  | cons e works ih =>
    rintro st ⟨rows, h, hc⟩
    obtain ⟨st₁, hone, h₁, -⟩ := workDone_spec h e
    obtain ⟨st', hrun, h'⟩ := ih ⟨rows, h₁, hc⟩
    refine ⟨st', ?_, h'⟩
    rw [List.foldlM_cons, hone]
    exact hrun

/-- A request to either program, and the deadlines after it. -/
theorem onRequest_spec (hR : R.Sound rel) (strtod : Bytes → StrtodResult) (program : Program) {st : Store}
    {m : RefStore Z} (h : st.Models rel m) (now clk : Nat) (cmd : List Bytes) (out : Buffer) :
    ∃ st' body m', program.onRequest strtod now clk st cmd out = some (st', out ++ body) ∧
      st'.Models rel m' ∧ ∀ t, m.DueBy t →
        (∀ ttl : Int, ttl < 2 ^ 63 → R.deadline clk ttl.toNat ≤ t) → m'.DueBy t := by
  obtain ⟨st', v, hrun, -, h'⟩ := execute_spec hR strtod h now clk cmd out
  have hdue : ∀ t, m.DueBy t → (∀ ttl : Int, ttl < 2 ^ 63 → R.deadline clk ttl.toNat ≤ t) →
      (refCommand R strtod clk (m.purge now) (dispatch cmd)).1.DueBy t := by
    intro t hm hnew
    have hpurged : (m.purge now).DueBy t := hm.faded (faded_purge now m)
    exact hpurged.command strtod hnew _
  cases program with
  | server => exact ⟨st', v.encode, _, hrun, h', hdue⟩
  | shard i n =>
    by_cases hown : rejects i n cmd
    · refine ⟨st, (Value.ofErr .badArg "key does not belong to this shard").encode, m, ?_, h,
        fun t hm _ => hm⟩
      rw [Program.onRequest, shardOnRequest, if_pos hown, outErr_eq]
    · refine ⟨st', v.encode, _, ?_, h', hdue⟩
      rw [Program.onRequest, shardOnRequest, if_neg hown]
      exact hrun

/-- **What holds of the store between two calls**: a deadline is at most the longest time to
live away from the last reading of the clock, while that is below `2 ^ 63`. -/
def ServedStore.Timely (s : ServedStore) : Prop :=
  ∃ m, s.store.Models ScoresOf m ∧ (s.clock < 2 ^ 63 → m.DueBy (s.clock + (2 ^ 63 - 1)))

theorem timely_init (threads : Nat) (ticks : List Tick) :
    ServedStore.Timely { store := { threads := threads }, ticks := ticks } :=
  ⟨∅, Store.models_empty threads, fun _ => RefStore.All.empty⟩

/-- Both programs answer every request and keep their deadlines in reach. -/
theorem served_serves (strtod : Bytes → StrtodResult) (program : Program) :
    Serves (servedOnRequest strtod program) servedOnTimer ServedStore.Timely where
  request := by
    rintro s cmd out ⟨m, h, hdue⟩
    rcases htick : s.ticks.headD {} with ⟨works, before, during⟩
    obtain ⟨st₁, hworks, h₁⟩ := worksDone_models works h
    obtain ⟨st', body, m', hrun, h', hdue'⟩ := onRequest_spec mapReading_sound strtod program h₁
      (s.clock + before) (s.clock + before + during) cmd out
    refine ⟨⟨st', s.clock + before + during, s.ticks.tail⟩, body, ?_, m', h',
      fun hclk => hdue' _ ?_ fun ttl httl => ?_⟩
    · simp only [servedOnRequest, htick, hworks, hrun, Option.bind_eq_bind, Option.bind_some]
      rfl
    · -- the clock has not gone back
      dsimp only at hclk ⊢
      exact (hdue (by omega)).mono (by omega)
    · dsimp only at hclk ⊢
      show wrapDeadline _ _ ≤ _
      rw [wrapDeadline, Nat.mod_eq_of_lt (by omega)]
      omega
  timer := by
    rintro s now ⟨m, h, hdue⟩
    obtain ⟨st', hrun, m', h', hf, -⟩ := processTimers_spec h now
    refine ⟨{ s with store := st' }, by simp [servedOnTimer, hrun], m', h', fun hclk => ?_⟩
    exact (hdue hclk).faded hf

/-! ## 3. The two earliest deadlines

The store cuts the time to its earliest deadline to what an `int32_t` holds and hands it to the
loop, which makes a time of the clock of it again, takes the earlier of the two and cuts once
more. That it does no harm to cut before comparing is `min_until`.
-/

def RefStore.deadlines (m : RefStore Z) : Set Nat :=
  {d | ∃ key re, m.lookup key = some re ∧ re.deadline = some d}

/-- When the connections will have been idle for too long. -/
def Srv.idleDeadlines {σ : Type} (srv : Srv σ) : Set Nat :=
  {e | ∃ c conn, srv.conns.read c = some conn ∧ e = conn.lastActiveMs + 5000}

theorem msUntil_eq_max {now nextMs : Nat} : msUntil now nextMs = 2 ^ 32 - 1 ↔ nextMs = 2 ^ 64 - 1 := by
  unfold msUntil
  split
  · simp [*]
  · split <;> omega

/-- A deadline is waited for, but not longer than an `int` can say. -/
theorem msUntil_of_ne {now nextMs : Nat} (h : nextMs ≠ 2 ^ 64 - 1) :
    msUntil now nextMs = min (nextMs - now) (2 ^ 31 - 1) := by
  unfold msUntil
  rw [if_neg h]
  split <;> omega

theorem Store.Models.isLeast_root {st : Store} {m : RefStore Z} (h : st.Models rel m) {item : HeapItem}
    (hh : st.heap.head? = some item) : IsLeast m.deadlines item.val := by
  refine ⟨h.root_mem hh, ?_⟩
  rintro d ⟨key, re, hre, hd⟩
  exact h.root_le hh hre hd

/-- **`KVStore::next_timer_ms`** is the time to the earliest deadline, zero if that is over, cut
to what an `int32_t` holds; the largest `uint32_t` says that there is none. -/
theorem nextTimerMs_spec {st : Store} {m : RefStore Z} (h : st.Models rel m) (hm : m.DueBy (2 ^ 64 - 2))
    (now : Nat) : (nextTimerMs now st = 2 ^ 32 - 1 ↔ m.deadlines = ∅) ∧
      ∀ d, IsLeast m.deadlines d → nextTimerMs now st = min (d - now) (2 ^ 31 - 1) := by
  unfold nextTimerMs
  cases hh : st.heap.head? with
  | none =>
    have hnone : m.deadlines = ∅ := by
      refine Set.eq_empty_iff_forall_notMem.mpr ?_
      rintro d ⟨key, re, hre, hd⟩
      obtain ⟨item, hitem⟩ := h.heap_ne_nil hre hd
      rw [hh] at hitem
      cases hitem
    refine ⟨⟨fun _ => hnone, fun _ => msUntil_eq_max.mpr rfl⟩, fun d hd => ?_⟩
    exact absurd hd.1 (hnone ▸ Set.notMem_empty d)
  | some item =>
    have hleast := h.isLeast_root hh
    obtain ⟨key, re, hre, hd⟩ := hleast.1
    have hlt : item.val ≤ 2 ^ 64 - 2 := hm key re hre _ hd
    have hne : item.val ≠ 2 ^ 64 - 1 := by omega
    dsimp only
    rw [if_pos (by omega), msUntil_eq_max]
    refine ⟨⟨fun heq => absurd heq hne, fun hnone => ?_⟩, fun d hd => ?_⟩
    · exact absurd hleast.1 (hnone ▸ Set.notMem_empty _)
    · rw [hd.unique hleast, msUntil_of_ne hne]

section Idle

variable {σ : Type} {srv : Srv σ} {l : List ConnId}

theorem idleDeadlines_eq_empty : srv.idleDeadlines = ∅ ↔ ∀ c, srv.conns.read c = none := by
  rw [Set.eq_empty_iff_forall_notMem]
  constructor
  · intro h c
    refine Option.eq_none_iff_forall_ne_some.mpr fun conn hconn => ?_
    exact h _ ⟨c, conn, hconn, rfl⟩
  · rintro h e ⟨c, conn, hconn, -⟩
    rw [h c] at hconn
    cases hconn

/-- **The head of the idle list is the connection that has been idle for longest.** -/
theorem idleDeadline_spec (h : srv.Table l) (hclk : srv.clock + 5000 < 2 ^ 64 - 1) :
    ∃ e, idleDeadline srv = some e ∧
      (e = 2 ^ 64 - 1 ∧ srv.idleDeadlines = ∅ ∨ e ≠ 2 ^ 64 - 1 ∧ IsLeast srv.idleDeadlines e) := by
  cases l with
  | nil =>
    refine ⟨2 ^ 64 - 1, by simp [idleDeadline, h.idle_nil], .inl ⟨rfl, ?_⟩⟩
    refine idleDeadlines_eq_empty.mpr fun c => ?_
    refine Option.eq_none_iff_forall_ne_some.mpr fun conn hconn => ?_
    cases h.list.mem_of_read hconn
  | cons c l =>
    obtain ⟨d, conn, hempty, hd, hdn, hconn, hactive⟩ := h.idle_cons
    have hrecent := h.order.recent c List.mem_cons_self
    rw [hactive] at hrecent
    have hsum : (conn.lastActiveMs + kIdleTimeoutMs) % 2 ^ 64 = conn.lastActiveMs + 5000 :=
      Nat.mod_eq_of_lt (show conn.lastActiveMs + 5000 < 2 ^ 64 by omega)
    refine ⟨conn.lastActiveMs + 5000, ?_, .inr ⟨by omega, ⟨c, conn, hconn, rfl⟩, ?_⟩⟩
    · rw [← hsum]
      simp [idleDeadline, hempty, hd, hdn, hconn]
    · -- the list is sorted by the last activity
      rintro e ⟨c', conn', hconn', rfl⟩
      have hactive' : srv.activeAt c' = conn'.lastActiveMs := by
        rw [Srv.activeAt, hconn']
        rfl
      have hle : srv.activeAt c ≤ srv.activeAt c' := by
        rcases List.mem_cons.mp (h.list.mem_of_read hconn') with rfl | hmem
        · exact Nat.le_refl _
        · exact (List.pairwise_cons.mp h.order.sorted).1 c' hmem
      rw [hactive, hactive'] at hle
      omega

/-- It is the same whether a deadline is cut before it is compared with another or after. -/
theorem min_until (now d e c : Nat) :
    min (min (now + min (d - now) c) e - now) c = min (min d e - now) c := by
  omega

/-- The largest `uint64_t` is later than every deadline that is cut. -/
theorem min_until_far {now d : Nat} (hnow : now < 2 ^ 63) :
    min (min (now + min (d - now) (2 ^ 31 - 1)) (2 ^ 64 - 1) - now) (2 ^ 31 - 1) =
      min (d - now) (2 ^ 31 - 1) := by
  omega

/-- **`next_timer_ms_combined`**, over a store that reports its earliest deadline: the earliest
deadline of both kinds, and not later than an `int` can say. -/
theorem nextTimerMsCombined_spec (h : srv.Table l) {now : Nat} (hnow : now < 2 ^ 63)
    (hclk : srv.clock ≤ now) (nextTimer : σ → Nat → Nat) {due : Set Nat}
    (hnone : nextTimer srv.state now = 2 ^ 32 - 1 ↔ due = ∅)
    (hsome : ∀ d, IsLeast due d → nextTimer srv.state now = min (d - now) (2 ^ 31 - 1)) :
    ∃ ms, nextTimerMsCombined (some nextTimer) now srv = some ms ∧
      (ms = 2 ^ 32 - 1 ↔ due = ∅ ∧ srv.idleDeadlines = ∅) ∧
      ∀ e, IsLeast (due ∪ srv.idleDeadlines) e → ms = min (e - now) (2 ^ 31 - 1) := by
  obtain ⟨idle, hidle, hcases⟩ := idleDeadline_spec h (by omega)
  rcases due.eq_empty_or_nonempty with hdue | hdue
  · -- the store has no timer, so the list decides
    have hrun : nextTimerMsCombined (some nextTimer) now srv = some (msUntil now idle) := by
      simp [nextTimerMsCombined, hidle, hnone.mpr hdue]
    refine ⟨_, hrun, ?_⟩
    rw [hdue, Set.empty_union, msUntil_eq_max]
    rcases hcases with ⟨hmax, hempty⟩ | ⟨hne, hleast⟩
    · refine ⟨⟨fun _ => ⟨rfl, hempty⟩, fun _ => hmax⟩, fun e he => ?_⟩
      exact absurd he.1 (hempty ▸ Set.notMem_empty e)
    · refine ⟨⟨fun hmax => absurd hmax hne, fun hempty => ?_⟩, fun e he => ?_⟩
      · exact absurd hleast.1 (hempty.2 ▸ Set.notMem_empty idle)
      · rw [he.unique hleast, msUntil_of_ne hne]
  · obtain ⟨d, hd⟩ : ∃ d, IsLeast due d := ⟨sInf due, isLeast_csInf hdue⟩
    have hstore := hsome d hd
    -- the sum does not wrap, and it is a deadline
    have hsum : (now + nextTimer srv.state now) % 2 ^ 64 = now + min (d - now) (2 ^ 31 - 1) := by
      rw [hstore]
      exact Nat.mod_eq_of_lt (by omega)
    have hrun : nextTimerMsCombined (some nextTimer) now srv =
        some (msUntil now (min (now + min (d - now) (2 ^ 31 - 1)) idle)) := by
      have hreal : nextTimer srv.state now ≠ 2 ^ 32 - 1 := by omega
      simp only [nextTimerMsCombined, hidle, Option.bind_eq_bind, Option.bind_some, hsum]
      by_cases hlt : now + min (d - now) (2 ^ 31 - 1) < idle
      · rw [if_pos ⟨hreal, hlt⟩, Nat.min_eq_left (Nat.le_of_lt hlt)]
        rfl
      · rw [if_neg fun hboth => hlt hboth.2, Nat.min_eq_right (Nat.le_of_not_lt hlt)]
        rfl
    refine ⟨_, hrun, ?_⟩
    have hne : min (now + min (d - now) (2 ^ 31 - 1)) idle ≠ 2 ^ 64 - 1 := by omega
    rw [msUntil_eq_max, msUntil_of_ne hne]
    refine ⟨⟨fun hmax => absurd hmax hne, fun hempty => ?_⟩, fun e he => ?_⟩
    · exact absurd hempty.1 hdue.ne_empty
    · rcases hcases with ⟨hmax, hempty⟩ | ⟨-, hleast⟩
      · rw [hempty, Set.union_empty] at he
        rw [he.unique hd, hmax, min_until_far hnow]
      · rw [he.unique (hd.union hleast), min_until]

end Idle

/-- **`poll` does not sleep past a deadline, in any run of the event loop.** The store's timer
is the time until the earliest deadline of all keys, cut to what an `int` can say; with the
connections it is at most the time until the earliest deadline of either kind. There is no timer
exactly if there is nothing to wait for, and `poll` waits for a second at most. -/
theorem poll_timeout_bound (strtod : Bytes → StrtodResult) (program : Program) (threads : Nat)
    (ticks : List Tick) (its : List Iteration) :
    ∃ srv₀, srvInit { store := { threads := threads }, ticks := ticks } = some srv₀ ∧
      (Legal (servedOnRequest strtod program) servedOnTimer srv₀ its →
        ∃ srv m, its.foldlM (iterate (servedOnRequest strtod program) servedOnTimer) srv₀ = some srv ∧
          srv.state.store.Models ScoresOf m ∧ (∀ m', srv.state.store.Models ScoresOf m' → m' = m) ∧
          ∀ now, now < 2 ^ 63 → srv.clock ≤ now → srv.state.clock ≤ now →
            (nextTimerMs now srv.state.store = 2 ^ 32 - 1 ↔ m.deadlines = ∅) ∧
            (∀ d, IsLeast m.deadlines d →
              nextTimerMs now srv.state.store = min (d - now) (2 ^ 31 - 1)) ∧
            ∃ ms, nextTimerMsCombined (some servedNextTimer) now srv = some ms ∧
              (ms = 2 ^ 32 - 1 ↔ m.deadlines = ∅ ∧ ∀ c, srv.conns.read c = none) ∧
              (∀ e, IsLeast (m.deadlines ∪ srv.idleDeadlines) e → ms ≤ e - now) ∧
              ∃ t, pollTimeout (some servedNextTimer) now srv = some t ∧
                t = min (ms : Int) 1000 ∧ 0 ≤ t ∧ t ≤ 1000) := by
  obtain ⟨srv₀, hinit, h₀, hstate⟩ :=
    srvInit_spec ({ store := { threads := threads }, ticks := ticks } : ServedStore)
  refine ⟨srv₀, hinit, fun hlegal => ?_⟩
  obtain ⟨srv, l, hrun, htable, m, h, hdue⟩ := iterates_spec (served_serves strtod program) h₀
    (hstate ▸ timely_init threads ticks) hlegal
  refine ⟨srv, m, hrun, h, fun m' h' => h.unique h', fun now hnow hclk hread => ?_⟩
  have hm : m.DueBy (2 ^ 64 - 2) := (hdue (by omega)).mono (by omega)
  obtain ⟨hnone, hsome⟩ := nextTimerMs_spec h hm now
  obtain ⟨ms, hms, hiff, hleast⟩ := nextTimerMsCombined_spec htable hnow hclk servedNextTimer hnone hsome
  have hpoll : pollTimeout (some servedNextTimer) now srv = some ((min ms 1000 : Nat) : Int) := by
    rw [pollTimeout, hms]
    exact congrArg some (toInt32_of_lt (by omega))
  refine ⟨hnone, hsome, ms, hms, ?_, fun e he => ?_, _, hpoll, by omega, by omega, by omega⟩
  · rw [hiff, idleDeadlines_eq_empty]
  · rw [hleast e he]
    exact Nat.min_le_left _ _

/-- A client sets a key and gives it 300 milliseconds. -/
def expiringKey : List Iteration :=
  [.polled { accept := some (.accepted 3 10), ready := [], now := 20 },
    .polled
      { accept := none
        ready := [some (30, ⟨true, false, false,
          .data (encodeRequest [bytes "set", bytes "k", bytes "v"] ++
            encodeRequest [bytes "pexpire", bytes "k", bytes "300"]), .wrote 100, .again⟩)]
        now := 40 }]

/-- No number is a score. -/
def noScores : Bytes → StrtodResult := fun _ => ⟨none, 0, false⟩

/-- The clock is read at 30 for the first request, and at 31 and 33 for the second. -/
def expiringTicks : List Tick := [{ before := 30 }, { before := 1, during := 2 }]

theorem expiringKey_legal {srv₀ : Srv ServedStore}
    (hinit : srvInit { store := { threads := 4 }, ticks := expiringTicks } = some srv₀) :
    Legal (servedOnRequest noScores .server) servedOnTimer srv₀ expiringKey := by
  cases hinit
  exact legal_of_check (by decide +kernel)

theorem poll_timeout_expiring :
    ∃ srv₀ srv m, srvInit { store := { threads := 4 }, ticks := expiringTicks } = some srv₀ ∧
      Legal (servedOnRequest noScores .server) servedOnTimer srv₀ expiringKey ∧
      expiringKey.foldlM (iterate (servedOnRequest noScores .server) servedOnTimer) srv₀ = some srv ∧
      pollTimeout (some servedNextTimer) 100 srv = some 233 ∧ srv.state.store.Models ScoresOf m ∧
      ∀ d, IsLeast m.deadlines d → nextTimerMs 100 srv.state.store = min (d - 100) (2 ^ 31 - 1) := by
  obtain ⟨srv₀, hinit, hbound⟩ := poll_timeout_bound noScores .server 4 expiringTicks expiringKey
  have hlegal := expiringKey_legal hinit
  obtain ⟨srv, m, hrun, h, -, htimer⟩ := hbound hlegal
  have hview : some (40, 33, some 233) =
      some (srv.clock, srv.state.clock, pollTimeout (some servedNextTimer) 100 srv) := by
    rw [← Option.some.inj hinit] at hrun
    exact congrArg (Option.map fun srv : Srv ServedStore =>
      (srv.clock, srv.state.clock, pollTimeout (some servedNextTimer) 100 srv)) hrun
  obtain ⟨hclock, hview⟩ := Prod.mk.inj (Option.some.inj hview)
  obtain ⟨hread, hpoll⟩ := Prod.mk.inj hview
  obtain ⟨-, hsome, -⟩ := htimer 100 (by decide) (by omega) (by omega)
  exact ⟨srv₀, srv, m, hinit, hlegal, hrun, hpoll.symm, h, hsome⟩

end ApexDB
