import ApexDB.Lib.Run
import ApexDB.Proof.Response

/-!
# A connection is a stream of requests

`read` cuts the stream where it likes and `write` takes what it likes, and neither matters:
**after any rounds of the loop the calls of the handler are the requests of what was received**,
and what was written followed by what waits in `outgoing` is their responses in order. The
reason is `Cutter.drain_append`: `try_one_request` decides as `requestCutter` does
(`tryOneRequest_eq`), the loop around it drains (`requestLoop_eq`), and draining what was left
together with what comes is draining the whole.

`Session.Inv` holds after every event, errors and the end of the stream included, and is what a
caller at the other end of the connection can rely on. The theorem at the end is about a
connection that met no error.
-/

set_option autoImplicit false

namespace ApexDB

open Lib

variable {σ : Type} (h : Handler σ)

/-! ## 1. What is cut off is a request

The cutter decides on the bytes alone: more are needed, they are wrong, or a request is cut off.
A wrong request stays where it is, and nothing behind it is ever looked at.
-/

theorem cutRequest_item {x rest : Bytes} {cmd : List Bytes} (hcut : cutRequest x = .item cmd rest) :
    x = encodeRequest cmd ++ rest := by
  unfold cutRequest at hcut
  split at hcut
  · cases hcut
  split at hcut
  · cases hcut
  split at hcut
  · cases hcut
  rename_i h₁ h₂ h₃
  split at hcut
  · cases hcut
  rename_i hparse
  cases hcut
  obtain ⟨hbody, hmax, hargs⟩ := parseReq_iff.mp hparse
  have hlen : ((x.drop 4).take (ofLe (x.take 4))).length = ofLe (x.take 4) := by
    rw [List.length_take, List.length_drop]
    omega
  have hhdr : le 4 (ofLe (x.take 4)) = x.take 4 := by
    have := le_ofLe (x.take 4)
    rwa [List.length_take, Nat.min_eq_left (by omega)] at this
  rw [encodeRequest_eq, if_pos ⟨hargs, hbody ▸ hmax⟩, ← hbody, hlen, hhdr, ← List.drop_drop,
    List.append_assoc, List.take_append_drop, List.take_append_drop]

/-- **A stream is the requests that are cut off it and what is left.** -/
theorem received_eq : ∀ x : Bytes,
    x = (requestCutter.drain x).items.flatMap encodeRequest ++ (requestCutter.drain x).rest := by
  refine Cutter.drain_induction (c := requestCutter) (fun x hc => ?_) (fun x hc => ?_)
    (fun x cmd rest hc ih => ?_)
  · rw [Cutter.drain_more hc]
    rfl
  · rw [Cutter.drain_bad hc]
    rfl
  · rw [Cutter.drain_item hc]
    simp only [List.flatMap_cons, List.append_assoc]
    rw [← ih]
    exact cutRequest_item hc

/-! ## 2. The calls of a handler

For handlers that are plain functions of a state and a command. A call is the state that the
handler finds and the command, so the list of calls says in which order things happened.
-/

/-- The calls of these commands, each with the state it finds. -/
def callsFrom : σ → List (List Bytes) → List (σ × List Bytes)
  | _, [] => []
  | s, cmd :: cmds => (s, cmd) :: callsFrom (h s cmd).1 cmds

def stateFrom (s : σ) (cmds : List (List Bytes)) : σ := cmds.foldl (fun s cmd => (h s cmd).1) s

def response (call : σ × List Bytes) : Bytes := frameOf (h call.1 call.2).2

theorem map_snd_callsFrom : ∀ (cmds : List (List Bytes)) (s : σ),
    (callsFrom h s cmds).map Prod.snd = cmds := by
  intro cmds
  induction cmds with
  | nil => intro s; rfl
  | cons cmd cmds ih =>
    intro s
    rw [callsFrom, List.map_cons, ih]

theorem callsFrom_append : ∀ (cmds cmds' : List (List Bytes)) (s : σ),
    callsFrom h s (cmds ++ cmds') = callsFrom h s cmds ++ callsFrom h (stateFrom h s cmds) cmds' := by
  intro cmds
  induction cmds with
  | nil => intro cmds' s; rfl
  | cons cmd cmds ih =>
    intro cmds' s
    rw [List.cons_append, callsFrom, ih]
    rfl

theorem stateFrom_append (s : σ) (cmds cmds' : List (List Bytes)) :
    stateFrom h s (cmds ++ cmds') = stateFrom h (stateFrom h s cmds) cmds' :=
  List.foldl_append

/-! ## 3. One round

`handle_read` reads once, answers all that can be answered, and tries to write at once.
`handle_write` may take only a part.
-/

theorem respond_handler (s : σ) (calls : List (σ × List Bytes)) (cmd : List Bytes) (out : Bytes) :
    respond h.onRequest (s, calls) cmd out =
      some (((h s cmd).1, calls ++ [(s, cmd)]), out ++ response h (s, cmd)) :=
  respond_spec out rfl

/-- `try_one_request` does what the cutter says. -/
theorem tryOneRequest_eq (onRequest : RequestHandler σ) (s : σ) (conn : Conn) :
    tryOneRequest onRequest s conn =
      match cutRequest conn.incoming with
      | .more => some (s, conn, false)
      | .bad => some (s, { conn with wantClose := true }, false)
      | .item cmd rest => (respond onRequest s cmd conn.outgoing).map fun (s, outgoing) =>
          (s, { conn with outgoing := outgoing, incoming := rest }, true) := by
  unfold tryOneRequest cutRequest
  by_cases h₁ : conn.incoming.length < 4
  · rw [if_pos h₁, if_pos h₁]
  rw [if_neg h₁, if_neg h₁]
  by_cases h₂ : kMaxMsg < ofLe (conn.incoming.take 4)
  · simp only [if_pos h₂]
  -- below the limit the sum of the `uint32_t` is the sum
  have hsum : (4 + ofLe (conn.incoming.take 4)) % 2 ^ 32 = 4 + ofLe (conn.incoming.take 4) := by
    unfold kMaxMsg at h₂
    omega
  simp only [if_neg h₂, hsum]
  by_cases h₃ : conn.incoming.length < 4 + ofLe (conn.incoming.take 4)
  · rw [if_pos h₃, if_pos h₃]
  rw [if_neg h₃, if_neg h₃]
  cases parseReq ((conn.incoming.drop 4).take (ofLe (conn.incoming.take 4))) with
  | none => rfl
  | some cmd =>
    cases hr : respond onRequest s cmd conn.outgoing <;> simp [hr]

/-- **The loop around it drains `incoming`**: the handler is called for its requests, in order,
and the rest is what the cutter leaves. -/
theorem requestLoop_eq : ∀ (x : Bytes) (fuel : Nat) (s : σ) (calls : List (σ × List Bytes))
    (conn : Conn), conn.incoming = x → x.length < fuel →
    loop (requestTurn h.onRequest) fuel ((s, calls), conn) =
      some ((stateFrom h s (requestCutter.drain x).items,
          calls ++ callsFrom h s (requestCutter.drain x).items),
        { conn with
          incoming := (requestCutter.drain x).rest
          outgoing := conn.outgoing ++
            (callsFrom h s (requestCutter.drain x).items).flatMap (response h)
          wantClose := conn.wantClose || (requestCutter.drain x).bad }) := by
  refine Cutter.drain_induction (c := requestCutter) (fun x hc => ?_) (fun x hc => ?_)
    (fun x cmd rest hc ih => ?_)
  all_goals
    intro fuel s calls conn hin hfuel
    obtain ⟨fuel, rfl⟩ : ∃ n, fuel = n + 1 := ⟨fuel - 1, by omega⟩
    have htry := tryOneRequest_eq h.onRequest (s, calls) conn
    rw [hin, show cutRequest x = requestCutter.cut x from rfl, hc] at htry
  · rw [loop_done (by simp only [requestTurn, htry]; rfl), Cutter.drain_more hc]
    simp [stateFrom, callsFrom, ← hin]
  · rw [loop_done (by simp only [requestTurn, htry]; rfl), Cutter.drain_bad hc]
    simp [stateFrom, callsFrom, ← hin]
  · dsimp only at htry
    rw [respond_handler] at htry
    have hlen := requestCutter.shrinks hc
    rw [loop_again (by simp only [requestTurn, htry]; rfl),
      ih fuel _ _ _ rfl (by omega), Cutter.drain_item hc]
    simp [stateFrom, callsFrom]

/-- A call failed, or `read` came to the end of the stream. -/
def ReadResult.Fails (r : ReadResult) : Prop := r = .eof ∨ r = .error

def WriteResult.Fails (w : WriteResult) : Prop := w = .error

/-- From one connection to the next, these bytes are gone from the front of `outgoing`. -/
structure Conn.Wrote (conn conn' : Conn) (sent : Bytes) : Prop where
  incoming : conn'.incoming = conn.incoming
  outgoing : sent ++ conn'.outgoing = conn.outgoing
  closing : conn.wantClose = true → conn'.wantClose = true

theorem Conn.Wrote.refl (conn : Conn) : conn.Wrote conn [] := ⟨rfl, rfl, id⟩

theorem handleWrite_spec (w : WriteResult) (conn : Conn) (hne : conn.outgoing.isEmpty = false) :
    ∃ conn' sent, handleWrite w conn = some (conn', sent) ∧ conn.Wrote conn' sent ∧
      (conn'.wantClose = true → conn.wantClose = true ∨ w.Fails) := by
  unfold handleWrite
  rw [if_neg (by simp [hne])]
  cases w with
  | again => exact ⟨_, _, rfl, .refl conn, .inl⟩
  | error => exact ⟨_, _, rfl, ⟨rfl, rfl, fun _ => rfl⟩, fun _ => .inr rfl⟩
  | wrote n =>
    refine ⟨_, _, rfl, ?_, ?_⟩
    · split <;> exact ⟨rfl, List.take_append_drop n _, id⟩
    · split <;> exact .inl

/-- **`handle_read`**, on a connection that waits for more: what it read is drained behind what
waited, and the responses join `outgoing`. -/
theorem handleRead_spec (r : ReadResult) (w : WriteResult) (s : σ) (calls : List (σ × List Bytes))
    {conn : Conn} (hmore : requestCutter.cut conn.incoming = .more) :
    ∃ conn' sent, let d := requestCutter.drain (conn.incoming ++ r.chunk)
      handleRead h.onRequest r w (s, calls) conn =
        some ((stateFrom h s d.items, calls ++ callsFrom h s d.items), conn', sent) ∧
      conn'.incoming = d.rest ∧
      sent ++ conn'.outgoing = conn.outgoing ++ (callsFrom h s d.items).flatMap (response h) ∧
      (d.bad = true → conn'.wantClose = true) ∧
      (conn'.wantClose = true →
        conn.wantClose = true ∨ d.bad = true ∨ r.Fails ∨ w.Fails) := by
  cases r with
  | data chunk =>
    simp only [ReadResult.chunk]
    generalize hd : requestCutter.drain (conn.incoming ++ chunk) = d
    obtain ⟨conn₁, hloop, hin, hout, hclose⟩ : ∃ conn₁ : Conn,
        loop (requestTurn h.onRequest) ((conn.incoming ++ chunk).length + 1)
          ((s, calls), { conn with incoming := conn.incoming ++ chunk }) =
            some ((stateFrom h s d.items, calls ++ callsFrom h s d.items), conn₁) ∧
        conn₁.incoming = d.rest ∧
        conn₁.outgoing = conn.outgoing ++ (callsFrom h s d.items).flatMap (response h) ∧
        (conn₁.wantClose = true ↔ conn.wantClose = true ∨ d.bad = true) := by
      subst hd
      exact ⟨_, requestLoop_eq h _ _ s calls _ rfl (Nat.lt_succ_self _), rfl, rfl,
        Bool.or_eq_true_iff⟩
    simp only [handleRead, hloop, Option.bind_eq_bind, Option.bind_some]
    by_cases hempty : conn₁.outgoing.isEmpty
    · refine ⟨conn₁, [], by rw [if_pos hempty]; rfl, hin, hout, fun hb => hclose.mpr (.inr hb), fun hc => ?_⟩
      rcases hclose.mp hc with hc | hc
      · exact .inl hc
      · exact .inr (.inl hc)
    · obtain ⟨conn', sent, hw, hwrote, hc'⟩ := handleWrite_spec w
        { conn₁ with wantRead := false, wantWrite := true } (Bool.eq_false_iff.mpr hempty)
      refine ⟨conn', sent, by rw [if_neg hempty, hw]; rfl, hwrote.incoming.trans hin,
        hwrote.outgoing.trans hout, fun hb => hwrote.closing (hclose.mpr (.inr hb)), fun hc => ?_⟩
      rcases hc' hc with hc | hc
      · rcases hclose.mp hc with hc | hc
        · exact .inl hc
        · exact .inr (.inl hc)
      · exact .inr (.inr (.inr hc))
  | again =>
    simp only [ReadResult.chunk, List.append_nil, Cutter.drain_more hmore]
    exact ⟨conn, [], by simp [handleRead, stateFrom, callsFrom], rfl, by simp [callsFrom], nofun, .inl⟩
  | eof =>
    simp only [ReadResult.chunk, List.append_nil, Cutter.drain_more hmore]
    exact ⟨{ conn with wantClose := true }, [], by simp [handleRead, stateFrom, callsFrom], rfl,
      by simp [callsFrom], nofun, fun _ => .inr (.inr (.inl (.inl rfl)))⟩
  | error =>
    simp only [ReadResult.chunk, List.append_nil, Cutter.drain_more hmore]
    exact ⟨{ conn with wantClose := true }, [], by simp [handleRead, stateFrom, callsFrom], rfl,
      by simp [callsFrom], nofun, fun _ => .inr (.inr (.inl (.inr rfl)))⟩

/-! ## 4. The life of a connection

Between two rounds other connections and the timers may call the handler and change its state.
The invariant does not mention how the bytes were cut into pieces, and that is the point of it.
-/

def Ready.Fails (ready : Ready) : Prop := ready.read.Fails ∨ ready.write.Fails ∨ ready.write'.Fails

/-- **One round of the loop** for a connection that waits for more. -/
theorem serveConn_spec (ready : Ready) (s : σ) (calls : List (σ × List Bytes)) {conn : Conn}
    (hmore : requestCutter.cut conn.incoming = .more) :
    ∃ conn' sent, let d := requestCutter.drain (conn.incoming ++ ready.chunk)
      serveConn h.onRequest ready (s, calls) conn =
        some ((stateFrom h s d.items, calls ++ callsFrom h s d.items), conn', sent,
          ready.pollerr || conn'.wantClose) ∧
      conn'.incoming = d.rest ∧
      sent ++ conn'.outgoing = conn.outgoing ++ (callsFrom h s d.items).flatMap (response h) ∧
      (d.bad = true → conn'.wantClose = true) ∧
      (conn'.wantClose = true → conn.wantClose = true ∨ d.bad = true ∨ ready.Fails) := by
  obtain ⟨conn₁, sent₁, hread, hin, hout, hbad, hclose⟩ : ∃ conn₁ sent₁,
      let d := requestCutter.drain (conn.incoming ++ ready.chunk)
      (if ready.pollin then handleRead h.onRequest ready.read ready.write (s, calls) conn
        else some ((s, calls), conn, [])) =
        some ((stateFrom h s d.items, calls ++ callsFrom h s d.items), conn₁, sent₁) ∧
      conn₁.incoming = d.rest ∧
      sent₁ ++ conn₁.outgoing = conn.outgoing ++ (callsFrom h s d.items).flatMap (response h) ∧
      (d.bad = true → conn₁.wantClose = true) ∧
      (conn₁.wantClose = true → conn.wantClose = true ∨ d.bad = true ∨ ready.Fails) := by
    unfold Ready.chunk
    by_cases hp : ready.pollin
    · simp only [if_pos hp]
      obtain ⟨conn₁, sent₁, hrun, hin, hout, hbad, hclose⟩ :=
        handleRead_spec h ready.read ready.write s calls hmore
      refine ⟨conn₁, sent₁, hrun, hin, hout, hbad, fun hc => ?_⟩
      rcases hclose hc with hc | hc | hc | hc
      · exact .inl hc
      · exact .inr (.inl hc)
      · exact .inr (.inr (.inl hc))
      · exact .inr (.inr (.inr (.inl hc)))
    · simp only [if_neg hp, List.append_nil, Cutter.drain_more hmore]
      exact ⟨conn, [], by simp [stateFrom, callsFrom], rfl, by simp [callsFrom], nofun, .inl⟩
  obtain ⟨conn₂, sent₂, hwrite, hwrote, hclose₂⟩ : ∃ conn₂ sent₂,
      (if ready.pollout ∧ ¬conn₁.wantClose ∧ ¬conn₁.outgoing.isEmpty then
        handleWrite ready.write' conn₁ else some (conn₁, [])) = some (conn₂, sent₂) ∧
      conn₁.Wrote conn₂ sent₂ ∧
      (conn₂.wantClose = true → conn₁.wantClose = true ∨ ready.write'.Fails) := by
    split
    · rename_i hp
      exact handleWrite_spec ready.write' conn₁ (Bool.eq_false_iff.mpr hp.2.2)
    · exact ⟨conn₁, [], rfl, .refl conn₁, .inl⟩
  refine ⟨conn₂, sent₁ ++ sent₂, ?_, hwrote.incoming.trans hin, ?_,
    fun hb => hwrote.closing (hbad hb), fun hc => ?_⟩
  · simp only [serveConn, hread, hwrite, Option.bind_eq_bind, Option.bind_some]
    rfl
  · rw [List.append_assoc, hwrote.outgoing, hout]
  · rcases hclose₂ hc with hc | hc
    · exact hclose hc
    · exact .inr (.inr (.inr (.inr hc)))

/-- **What holds of a connection after every event**: the calls are the requests of what was
received, what was written and what waits are their responses, and what is left in `incoming` is
no request. -/
structure Session.Inv (S : Session σ) : Prop where
  calls : S.calls.map Prod.snd = (requestCutter.drain S.received).items
  replies : S.written ++ S.conn.outgoing = S.calls.flatMap (response h)
  waiting : S.conn.incoming = (requestCutter.drain S.received).rest
  closing : (requestCutter.drain S.received).bad = true → S.conn.wantClose = true
  alive : S.live = true → S.conn.wantClose = false

theorem drain_nil : requestCutter.drain [] = ⟨[], [], false⟩ := Cutter.drain_more rfl

theorem Session.inv_start (s : σ) : Session.Inv h { state := s } where
  calls := by
    rw [drain_nil]
    rfl
  replies := rfl
  waiting := by
    rw [drain_nil]
    rfl
  closing := by
    rw [drain_nil]
    exact nofun
  alive := fun _ => rfl

/-- A round of a live connection: the requests of what was read are answered, and nothing else
happened. -/
theorem Session.step_poll {S : Session σ} (hS : S.Inv h) (hlive : S.live = true) (ready : Ready) :
    ∃ S' cmds, S.step h (.poll ready) = some S' ∧ S'.Inv h ∧
      S'.received = S.received ++ ready.chunk ∧
      S'.state = stateFrom h S.state cmds ∧ S'.calls = S.calls ++ callsFrom h S.state cmds ∧
      (S'.conn.wantClose = true → (requestCutter.drain S'.received).bad = true ∨ ready.Fails) := by
  have hopen := hS.alive hlive
  have hgood : (requestCutter.drain S.received).bad = false := by
    by_contra hb
    exact absurd (hS.closing (by simpa using hb)) (by simp [hopen])
  have hmore : requestCutter.cut S.conn.incoming = .more := by
    rw [hS.waiting]
    exact Cutter.cut_drain_rest S.received hgood
  obtain ⟨conn', sent, hrun, hin, hout, hbad, hclose⟩ := serveConn_spec h ready S.state S.calls hmore
  -- draining what waited with what came is draining all that was received
  have hdrain := Cutter.drain_append ready.chunk S.received hgood
  rw [← hS.waiting] at hdrain
  generalize hd : requestCutter.drain (S.conn.incoming ++ ready.chunk) = d at hrun hin hout hbad hclose hdrain
  refine ⟨⟨stateFrom h S.state d.items, conn', !(ready.pollerr || conn'.wantClose),
      S.received ++ ready.chunk, S.written ++ sent, S.calls ++ callsFrom h S.state d.items⟩,
    d.items, ?_, ⟨?_, ?_, ?_, ?_, ?_⟩, rfl, rfl, rfl, ?_⟩
  · simp only [Session.step, if_pos hlive, hrun, Option.bind_eq_bind, Option.bind_some]
    rfl
  · simp only [hdrain, List.map_append, hS.calls, map_snd_callsFrom]
  · simp only [List.append_assoc, hout, List.flatMap_append]
    rw [← List.append_assoc, hS.replies]
  · simp only [hdrain, hin]
  · simp only [hdrain]
    exact hbad
  · intro hl
    exact (by simpa using hl : ready.pollerr = false ∧ conn'.wantClose = false).2
  · simp only [hdrain]
    intro hc
    rcases hclose hc with hc | hc | hc
    · exact absurd hc (by simp [hopen])
    · exact .inl hc
    · exact .inr hc

theorem Session.step_inv {S : Session σ} (hS : S.Inv h) (ev : LoopEvent σ) :
    ∃ S', S.step h ev = some S' ∧ S'.Inv h := by
  cases ev with
  | poll ready =>
    by_cases hlive : S.live
    · obtain ⟨S', -, hstep, hS', -⟩ := Session.step_poll h hS hlive ready
      exact ⟨S', hstep, hS'⟩
    · exact ⟨S, by rw [Session.step, if_neg hlive], hS⟩
  | elsewhere s => exact ⟨_, rfl, hS.calls, hS.replies, hS.waiting, hS.closing, hS.alive⟩
  | timeout => exact ⟨_, rfl, hS.calls, hS.replies, hS.waiting, hS.closing, nofun⟩

def LoopEvent.Clean : LoopEvent σ → Prop
  | .poll ready => ¬ready.Fails
  | _ => True

/-- Without a failure only a wrong request closes the connection. -/
theorem Session.step_clean {S : Session σ} (hS : S.Inv h)
    (hc : S.conn.wantClose = true → (requestCutter.drain S.received).bad = true)
    {ev : LoopEvent σ} (hev : ev.Clean) : ∃ S', S.step h ev = some S' ∧ S'.Inv h ∧
      (S'.conn.wantClose = true → (requestCutter.drain S'.received).bad = true) := by
  obtain ⟨S', hstep, hS'⟩ := Session.step_inv h hS ev
  refine ⟨S', hstep, hS', ?_⟩
  cases ev with
  | poll ready =>
    by_cases hlive : S.live
    · obtain ⟨S₁, -, hstep₁, -, -, -, -, hclose⟩ := Session.step_poll h hS hlive ready
      obtain rfl : S₁ = S' := Option.some.inj (hstep₁.symm.trans hstep)
      exact fun hw => (hclose hw).resolve_right hev
    · rw [Session.step, if_neg hlive] at hstep
      cases hstep
      exact hc
  | elsewhere s => cases hstep; exact hc
  | timeout => cases hstep; exact hc

def Session.Alone (s₀ : σ) (S : Session σ) : Prop :=
  S.state = stateFrom h s₀ (requestCutter.drain S.received).items ∧
    S.calls = callsFrom h s₀ (requestCutter.drain S.received).items

theorem Session.step_alone {s₀ : σ} {S : Session σ} (hS : S.Inv h) (ha : S.Alone h s₀)
    {ev : LoopEvent σ} (hev : ∀ s, ev ≠ .elsewhere s) :
    ∃ S', S.step h ev = some S' ∧ S'.Inv h ∧ S'.Alone h s₀ := by
  obtain ⟨S', hstep, hS'⟩ := Session.step_inv h hS ev
  refine ⟨S', hstep, hS', ?_⟩
  cases ev with
  | poll ready =>
    by_cases hlive : S.live
    · obtain ⟨S₁, cmds, hstep₁, -, -, hstate, hcalls, -⟩ := Session.step_poll h hS hlive ready
      obtain rfl : S₁ = S' := Option.some.inj (hstep₁.symm.trans hstep)
      have hitems : (requestCutter.drain S₁.received).items =
          (requestCutter.drain S.received).items ++ cmds := by
        rw [← hS'.calls, ← hS.calls, hcalls, List.map_append, map_snd_callsFrom]
      rw [Session.Alone, hitems, stateFrom_append, callsFrom_append, ← ha.1, ← ha.2]
      exact ⟨hstate, hcalls⟩
    · rw [Session.step, if_neg hlive] at hstep
      cases hstep
      exact ha
  | elsewhere s => exact absurd rfl (hev s)
  | timeout => cases hstep; exact ha

/-- **The stream, whatever its fragmentation.** After any rounds in which no call fails, the
handler was called with the requests at the front of what was received, each once and in order,
up to the first wrong one; what was written followed by what waits to be written is the
responses to these calls; and the connection is to be closed exactly if a wrong request was
reached. A handler that nobody else calls saw the states that these commands pass on. -/
theorem connection_stream (s₀ : σ) (evs : List (LoopEvent σ)) (hclean : ∀ ev ∈ evs, ev.Clean) :
    ∃ S, evs.foldlM (Session.step h) { state := s₀ } = some S ∧
      let d := requestCutter.drain S.received
      S.received = d.items.flatMap encodeRequest ++ d.rest ∧
      S.calls.map Prod.snd = d.items ∧
      S.written ++ S.conn.outgoing = S.calls.flatMap (fun call => frameOf (h call.1 call.2).2) ∧
      S.conn.wantClose = d.bad ∧
      ((∀ s, .elsewhere s ∉ evs) → S.calls = callsFrom h s₀ d.items) := by
  obtain ⟨S, hrun, hS, hclose⟩ := foldlM_inv
    (fun S : Session σ => S.Inv h ∧
      (S.conn.wantClose = true → (requestCutter.drain S.received).bad = true))
    LoopEvent.Clean (fun S ev hev hS => Session.step_clean h hS.1 hS.2 hev) evs { state := s₀ } hclean
    ⟨Session.inv_start h s₀, fun hw => absurd hw Bool.false_ne_true⟩
  refine ⟨S, hrun, received_eq S.received, hS.calls, hS.replies,
    Bool.eq_iff_iff.mpr ⟨hclose, hS.closing⟩, fun hown => ?_⟩
  obtain ⟨S', hrun', -, ha⟩ := foldlM_inv
    (fun S : Session σ => S.Inv h ∧ S.Alone h s₀)
    (fun ev => ∀ s, ev ≠ .elsewhere s) (fun S ev hev hS => Session.step_alone h hS.1 hS.2 hev) evs { state := s₀ }
    (fun ev hev s hs => hown s (hs ▸ hev))
    ⟨Session.inv_start h s₀, by rw [Session.Alone, drain_nil]; exact ⟨rfl, rfl⟩⟩
  obtain rfl : S' = S := Option.some.inj (hrun'.symm.trans hrun)
  exact ha.2

/-- A handler that counts its calls and answers with the last word of the command. -/
def countingHandler : Handler Nat := fun n cmd => (n + 1, cmd.getLastD [])

/-- Two requests and the head of a third one, in three pieces, with one slow and one refused
`write`. -/
def piecesRun : List (LoopEvent Nat) :=
  let stream := encodeRequest [bytes "get", [1]] ++ encodeRequest [[2, 3]] ++ [7]
  [.poll ⟨true, false, false, .data (stream.take 6), .again, .again⟩,
   .poll ⟨true, false, false, .data ((stream.drop 6).take 20), .wrote 3, .again⟩,
   .poll ⟨true, true, false, .data (stream.drop 26), .again, .wrote 4⟩]

theorem connection_stream_pieces : (∀ ev ∈ piecesRun, ev.Clean) ∧
    ∃ S, piecesRun.foldlM (Session.step countingHandler) { state := 0 } = some S ∧
      S.calls = callsFrom countingHandler 0 [[bytes "get", [1]], [[2, 3]]] ∧
      S.written ++ S.conn.outgoing = frameOf [1] ++ frameOf [2, 3] ∧ S.conn.wantClose = false := by
  have hclean : ∀ ev ∈ piecesRun, ev.Clean := by
    simp [piecesRun, LoopEvent.Clean, Ready.Fails, ReadResult.Fails, WriteResult.Fails]
  have hown : ∀ s, .elsewhere s ∉ piecesRun := by simp [piecesRun]
  obtain ⟨S, hrun, -, hmap, hout, hclose, hcalls⟩ :=
    connection_stream countingHandler 0 piecesRun hclean
  have heval : (piecesRun.foldlM (Session.step countingHandler) { state := 0 }).map
      (fun S => (S.calls, S.conn.wantClose)) =
        some ([(0, [bytes "get", [1]]), (1, [[2, 3]])], false) := by decide +kernel
  rw [hrun] at heval
  obtain ⟨hc, hw⟩ := Prod.mk.inj (Option.some.inj heval)
  refine ⟨hclean, S, hrun, ?_, ?_, hw⟩
  · rw [hcalls hown, ← hmap, hc]
    rfl
  · rw [hout, hc]
    rfl

end ApexDB
