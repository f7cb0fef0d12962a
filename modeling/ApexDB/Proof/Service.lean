import ApexDB.Spec.Service
import ApexDB.Proof.Appends
import ApexDB.Proof.OneOrder
import ApexDB.Proof.PollTimeout

/-!
# The single-node server is the reference store, asked by many

`OneOrder.lean` reduces a run of the event loop to one sequence of calls. What is left is the
sequence: each call of `execute` is followed by the reference (`StoreRuns.lean`), timers and
workers are not seen in it, and so **every client finds in its connection the answers of one
reference store**, in an order that all clients share.

The reference here has no clock of its own either. It is told how much time passes before a call
and in the course of it, and reads the sum, as the store reads the clock of the machine.
-/

set_option autoImplicit false

namespace ApexDB

open Lib

variable {σ τ Z : Type}

/-! ## 1. Calls that follow a machine

For any machine and any handlers: if every call is followed, so is every sequence of calls, and
what the connections were sent is admitted.
-/

/-- What is cut off a stream can be encoded, for it came so. -/
theorem drain_encodable : ∀ x : Bytes, ∀ cmd ∈ (requestCutter.drain x).items, encodeRequest cmd ≠ [] := by
  refine Cutter.drain_induction (c := requestCutter) (fun x hc => ?_) (fun x hc => ?_) (fun x cmd rest hc ih => ?_)
  · rw [Cutter.drain_more hc]
    exact nofun
  · rw [Cutter.drain_bad hc]
    exact nofun
  · rw [Cutter.drain_item hc]
    intro cmd' hmem
    rcases List.mem_cons.mp hmem with rfl | hmem
    · intro hnil
      have hx := cutRequest_item hc
      rw [hnil, List.nil_append] at hx
      exact absurd (requestCutter.shrinks hc) (by rw [hx]; exact Nat.lt_irrefl _)
    · exact ih cmd' hmem

def LoopCall.Encodable : LoopCall → Prop
  | .request _ cmd => encodeRequest cmd ≠ []
  | .timer _ => True

theorem mem_requestsOf {c : ConnId} {cmd : List Bytes} {calls : List LoopCall} (h : .request c cmd ∈ calls) :
    cmd ∈ requestsOf c calls :=
  List.mem_filterMap.mpr ⟨_, h, if_pos rfl⟩

section Follow

variable {onRequest : RequestHandler σ} {onTimer : σ → Nat → Option σ} {s₀ : σ} {w : Watched σ}
  {outs : List Bytes}

theorem Watched.Inv.encodable (hinv : w.Inv onRequest onTimer s₀ outs) : ∀ call ∈ w.calls, call.Encodable := by
  intro call hcall
  cases call with
  | timer now => trivial
  | request c cmd =>
    have hmem := mem_requestsOf hcall
    rw [hinv.requests c] at hmem
    exact drain_encodable _ cmd hmem

/-- **A server whose calls are followed by a machine** gives the answers that the machine
admits. -/
theorem Watched.Inv.admits (hinv : w.Inv onRequest onTimer s₀ outs) {M : Machine τ LoopCall Bytes}
    {R : σ → τ → Prop}
    (one : ∀ s t call, R s t → M.pre t call → call.Encodable →
      ∃ s' o, callStep onRequest onTimer s call = some (s', o) ∧ M.admits t call o ∧ R s' (M.next t call))
    {t₀ : τ} (hR : R s₀ t₀) (hlegal : M.Legal t₀ w.calls) : M.Admits t₀ w.calls outs := by
  obtain ⟨s', os, hrun, hadmits, -⟩ := M.run_refines_on one w.calls s₀ t₀ hR hlegal hinv.encodable
  rw [hinv.order] at hrun
  cases hrun
  exact hadmits

end Follow

/-! ## 2. The store behind the loop

The instance for the store. Works that a worker does between two calls leave it standing for the
same map.
-/

/-- Both programs append their answer to whatever the buffer holds. -/
theorem served_replies (strtod : Bytes → StrtodResult) (program : Program) :
    Replies (servedOnRequest strtod program) servedOnTimer ServedStore.Timely where
  request := by
    intro s cmd hs
    obtain ⟨s', body, hrun, hs'⟩ := (served_serves strtod program).request s cmd [] hs
    refine ⟨s', body, fun out => ?_, hs'⟩
    have happ : Appends (servedOnRequest strtod program s cmd) :=
      .bind _ fun store => (program.onRequest_appends strtod _ _ store cmd).map fun store =>
        ServedStore.mk store (s.clock + (s.ticks.headD {}).before + (s.ticks.headD {}).during) s.ticks.tail
    rw [happ out, hrun]
    rfl
  timer := (served_serves strtod program).timer

def Tick.waits (tick : Tick) : Nat × Nat := (tick.before, tick.during)

/-- The store of a served store stands for the reference, and the readings of the clock are the
same. -/
structure ServedStore.Serving (rel : ZTree → Z → Prop) (s : ServedStore) (t : ServiceState Z) : Prop where
  store : s.store.Follows rel t.ref
  clock : t.clock = s.clock
  waits : t.waits = s.ticks.map Tick.waits

theorem ServedStore.Serving.readings {rel : ZTree → Z → Prop} {s : ServedStore} {t : ServiceState Z}
    (h : s.Serving rel t) :
    t.now = s.clock + (s.ticks.headD {}).before ∧
      t.clk = s.clock + (s.ticks.headD {}).before + (s.ticks.headD {}).during := by
  unfold ServiceState.clk ServiceState.now
  rw [h.clock, h.waits]
  cases s.ticks <;> exact ⟨rfl, rfl⟩

/-- **One call is followed.** -/
theorem served_step {R : Reading Z} {rel : ZTree → Z → Prop} (hR : R.Sound rel) (strtod : Bytes → StrtodResult)
    {s : ServedStore} {t : ServiceState Z} {call : LoopCall} (h : s.Serving rel t)
    (hp : (nodeService R strtod).pre t call) :
    ∃ s' o, callStep (servedOnRequest strtod .server) servedOnTimer s call = some (s', o) ∧
      (nodeService R strtod).admits t call o ∧ s'.Serving rel ((nodeService R strtod).next t call) := by
  cases call with
  | timer now =>
    obtain ⟨st, hrun, hst⟩ := h.store.processTimers (Nat.le_max_left t.ref.clock now) (Nat.le_max_right _ _)
    exact ⟨{ s with store := st }, [], by simp [callStep, servedOnTimer, hrun], rfl, hst, h.clock, h.waits⟩
  | request c cmd =>
    obtain ⟨m, hm, hf⟩ := h.store
    obtain ⟨st₁, hworks, h₁⟩ := worksDone_models (s.ticks.headD {}).works hm
    obtain ⟨st, v, hexec, hv, hst⟩ := Store.Follows.execute hR strtod ⟨m, h₁, hf⟩ hp t.clk cmd
      (le 4 0)
    obtain ⟨hnow, hclk⟩ := h.readings
    have hcall : servedOnRequest strtod .server s cmd ([] ++ le 4 0) =
        some (⟨st, t.clk, s.ticks.tail⟩, [] ++ le 4 0 ++ v.encode) := by
      rw [hnow, hclk] at hexec
      rw [hclk]
      simp only [servedOnRequest, hworks, Program.onRequest, serverOnRequest, List.nil_append, hexec,
        Option.bind_eq_bind, Option.bind_some]
      rfl
    refine ⟨_, _, respond_spec [] hcall, ⟨v, hv, rfl⟩, hst, rfl, ?_⟩
    show t.waits.tail = _
    rw [h.waits, List.map_tail]

/-- **The single-node server is a reference store, asked by many.** Over any run of the event
loop around a store, with its workers and its timers: the calls for a connection are the
requests it has sent, what it was sent is the front of the answers to them, and if the clock did
not go back from call to call, these are the answers of one reference store to the calls in
their one order. The sorted sets of the reference are trees, which decide every reply, or finite
maps from members to scores, which a client has in mind. -/
theorem server_is_reference (strtod : Bytes → StrtodResult) (threads : Nat) (ticks : List Tick)
    {srv₀ : Srv ServedStore} (hinit : srvInit { store := { threads := threads }, ticks := ticks } = some srv₀)
    (its : List Iteration) (hlegal : Legal (servedOnRequest strtod .server) servedOnTimer srv₀ its) :
    ∃ w outs, its.foldlM (Watched.iterate (servedOnRequest strtod .server) servedOnTimer) { srv := srv₀ } =
        some w ∧
      its.foldlM (iterate (servedOnRequest strtod .server) servedOnTimer) srv₀ = some w.srv ∧
      (∀ c, requestsOf c w.calls = (requestCutter.drain (w.traffic c).received).items) ∧
      (∀ c, (w.traffic c).written <+: responsesTo c w.calls outs) ∧
      ((nodeService treeReading strtod).Legal (.start (ticks.map Tick.waits)) w.calls →
        (nodeService treeReading strtod).Admits (.start (ticks.map Tick.waits)) w.calls outs) ∧
      ((nodeService mapReading strtod).Legal (.start (ticks.map Tick.waits)) w.calls →
        (nodeService mapReading strtod).Admits (.start (ticks.map Tick.waits)) w.calls outs) := by
  obtain ⟨w, outs, hrun, hsrv, hinv, -⟩ :=
    Watched.inv_run (served_replies strtod .server) (timely_init threads ticks) hinit hlegal
  have hstart : ∀ {Z : Type} (rel : ZTree → Z → Prop),
      ServedStore.Serving rel { store := { threads := threads }, ticks := ticks } (.start (ticks.map Tick.waits)) :=
    fun _ => ⟨Store.follows_empty threads, rfl, rfl⟩
  exact ⟨w, outs, hrun, hsrv, hinv.requests, hinv.written,
    hinv.admits (fun s t call h hp _ => served_step treeReading_sound strtod h hp) (hstart _),
    hinv.admits (fun s t call h hp _ => served_step mapReading_sound strtod h hp) (hstart _)⟩

/-- One client sets a key and another one reads it. -/
def setThenGet : List Iteration :=
  [.polled { accept := some (.accepted 3 10), ready := [], now := 20 },
    .polled
      { accept := some (.accepted 5 25)
        ready := [some (30, ⟨true, false, false, .data (encodeRequest [bytes "set", bytes "k", bytes "v"]),
          .wrote 100, .again⟩)]
        now := 40 },
    .polled
      { accept := none
        ready := [none, some (41, ⟨true, false, false, .data (encodeRequest [bytes "get", bytes "k"]),
          .wrote 3, .again⟩)]
        now := 50 }]

/-- The clock is read at 31 for the first request and at 43 for the second. -/
def setThenGetTicks : List Tick := [{ before := 31 }, { before := 12 }]

theorem server_is_reference_two :
    ∃ srv₀, srvInit { store := { threads := 4 }, ticks := setThenGetTicks } = some srv₀ ∧
      Legal (servedOnRequest noScores .server) servedOnTimer srv₀ setThenGet ∧
      ∃ (w : Watched ServedStore) (outs : List Bytes),
        setThenGet.foldlM (iterate (servedOnRequest noScores .server) servedOnTimer) srv₀ = some w.srv ∧
        w.calls = [.timer 20, .request 0 [bytes "set", bytes "k", bytes "v"], .timer 40,
          .request 1 [bytes "get", bytes "k"], .timer 50] ∧
        (w.traffic 1).written <+: responsesTo 1 w.calls outs ∧
        (nodeService treeReading noScores).Admits (.start (setThenGetTicks.map Tick.waits)) w.calls outs ∧
        (nodeService mapReading noScores).Admits (.start (setThenGetTicks.map Tick.waits)) w.calls outs := by
  obtain ⟨srv₀, hinit⟩ : ∃ srv₀, srvInit ({ store := { threads := 4 }, ticks := setThenGetTicks } : ServedStore) =
    some srv₀ := ⟨_, rfl⟩
  have hlegal : Legal (servedOnRequest noScores .server) servedOnTimer srv₀ setThenGet := by
    cases hinit
    exact legal_of_check (by decide +kernel)
  obtain ⟨w, outs, hrun, hsrv, -, hwritten, htree, hmap⟩ :=
    server_is_reference noScores 4 setThenGetTicks hinit setThenGet hlegal
  have hcalls : w.calls = [.timer 20, .request 0 [bytes "set", bytes "k", bytes "v"], .timer 40,
      .request 1 [bytes "get", bytes "k"], .timer 50] := by
    cases hinit
    exact (Option.some.inj (congrArg (Option.map Watched.calls) hrun)).symm
  refine ⟨srv₀, hinit, hlegal, w, outs, hsrv, hcalls, hwritten 1, htree ?_, hmap ?_⟩
  · rw [hcalls]
    exact ⟨trivial, (by decide : 20 ≤ 31), trivial, (by decide : 40 ≤ 43), trivial, trivial⟩
  · rw [hcalls]
    exact ⟨trivial, (by decide : 20 ≤ 31), trivial, (by decide : 40 ≤ 43), trivial, trivial⟩

end ApexDB
