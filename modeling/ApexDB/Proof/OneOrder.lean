import ApexDB.History
import ApexDB.Proof.Interest

/-!
# Many connections, one order

The loop serves its connections one after the other, so what its handlers are asked over a whole
run is one sequence of calls. **Every client finds its own part of that sequence in its
connection**: the calls made for a connection are the requests it has sent, in their order, and
the bytes it was sent are the front of the answers to them. The sequence alone, run without
connections, leaves the handlers where the loop left them (`Watched.Inv`).

One connection was specified in `ServerLoop.lean` for handlers that are plain functions.
`Mirrors` carries that over to the handlers of the programs, and to the recorded ones that
`Watched` uses.
-/

set_option autoImplicit false

namespace ApexDB

open Lib

variable {σ τ : Type}

/-! ## 1. One handler for another

Two handlers on two states, where one state is a view of the other. Then serving a connection
with either is the same, and the view is kept.
-/

/-- On the states of the invariant, `k` does after `f` what `g` does. -/
structure Mirrors (Inv : τ → Prop) (f : τ → σ) (g : RequestHandler τ) (k : RequestHandler σ) : Prop where
  call : ∀ t cmd out, Inv t → k (f t) cmd out = (g t cmd out).map (Prod.map f id)
  keep : ∀ t cmd out t' out', Inv t → g t cmd out = some (t', out') → Inv t'

section Mirrors

variable {Inv : τ → Prop} {f : τ → σ} {g : RequestHandler τ} {k : RequestHandler σ}

theorem Mirrors.respond (h : Mirrors Inv f g k) {t : τ} (ht : Inv t) (cmd : List Bytes) (out : Buffer) :
    ApexDB.respond k (f t) cmd out = (ApexDB.respond g t cmd out).map (Prod.map f id) := by
  unfold ApexDB.respond
  dsimp only
  rw [h.call t cmd _ ht]
  cases g t cmd (responseBegin out).1 with
  | none => rfl
  | some r =>
    dsimp only [Option.map_some, Prod.map, id, Option.bind_eq_bind, Option.bind_some]
    cases responseEnd r.2 (responseBegin out).2 <;> rfl

theorem Mirrors.respond_keep (h : Mirrors Inv f g k) {t t' : τ} (ht : Inv t) {cmd : List Bytes}
    {out out' : Buffer} (hrun : ApexDB.respond g t cmd out = some (t', out')) : Inv t' := by
  obtain ⟨⟨t₁, out₁⟩, hcall, hrest⟩ := Option.bind_eq_some_iff.mp hrun
  obtain ⟨out₂, -, hlast⟩ := Option.bind_eq_some_iff.mp hrest
  cases hlast
  exact h.keep t cmd _ _ _ ht hcall

theorem Mirrors.turn (h : Mirrors Inv f g k) {t : τ} (ht : Inv t) (conn : Conn) :
    requestTurn k (f t, conn) =
      (requestTurn g (t, conn)).map (Turn.map (Prod.map f id) (Prod.map f id)) := by
  unfold requestTurn
  dsimp only
  rw [tryOneRequest_eq, tryOneRequest_eq]
  cases cutRequest conn.incoming with
  | more => rfl
  | bad => rfl
  | item cmd rest =>
    dsimp only
    rw [h.respond ht]
    cases ApexDB.respond g t cmd conn.outgoing <;> rfl

theorem Mirrors.turn_keep (h : Mirrors Inv f g k) {b b' : τ × Conn} (hb : Inv b.1)
    (hrun : requestTurn g b = some (.again b')) : Inv b'.1 := by
  unfold requestTurn at hrun
  rw [tryOneRequest_eq] at hrun
  cases hcut : cutRequest b.2.incoming with
  | more =>
    rw [hcut] at hrun
    cases hrun
  | bad =>
    rw [hcut] at hrun
    cases hrun
  | item cmd rest =>
    rw [hcut] at hrun
    dsimp only at hrun
    cases hr : ApexDB.respond g b.1 cmd b.2.outgoing with
    | none =>
      rw [hr] at hrun
      cases hrun
    | some r =>
      rw [hr] at hrun
      cases hrun
      exact h.respond_keep hb hr

theorem Mirrors.handleRead (h : Mirrors Inv f g k) {t : τ} (ht : Inv t) (r : ReadResult) (w : WriteResult)
    (conn : Conn) :
    ApexDB.handleRead k r w (f t) conn = (ApexDB.handleRead g r w t conn).map (Prod.map f id) := by
  cases r with
  | again => rfl
  | error => rfl
  | eof => rfl
  | data chunk =>
    have hloop := loop_lockstep (fun b : τ × Conn => Inv b.1)
      (fun b hb => h.turn (t := b.1) hb b.2) (fun b b' hb hrun => h.turn_keep hb hrun)
      ((conn.incoming ++ chunk).length + 1) (t, { conn with incoming := conn.incoming ++ chunk }) ht
    dsimp only [Prod.map, id] at hloop
    simp only [ApexDB.handleRead, hloop]
    cases loop (requestTurn g) ((conn.incoming ++ chunk).length + 1)
      (t, { conn with incoming := conn.incoming ++ chunk }) with
    | none => rfl
    | some b =>
      dsimp only [Option.map_some, Prod.map, id, Option.bind_eq_bind, Option.bind_some]
      split
      · rfl
      · cases handleWrite w { b.2 with wantRead := false, wantWrite := true } <;> rfl

/-- **Serving a connection** is the same for both. -/
theorem Mirrors.serveConn (h : Mirrors Inv f g k) {t : τ} (ht : Inv t) (ready : Ready) (conn : Conn) :
    ApexDB.serveConn k ready (f t) conn = (ApexDB.serveConn g ready t conn).map (Prod.map f id) := by
  have hread : (if ready.pollin then ApexDB.handleRead k ready.read ready.write (f t) conn
      else some (f t, conn, [])) =
      (if ready.pollin then ApexDB.handleRead g ready.read ready.write t conn
        else some (t, conn, [])).map (Prod.map f id) := by
    split
    · exact h.handleRead ht ready.read ready.write conn
    · rfl
  simp only [ApexDB.serveConn, hread]
  cases (if ready.pollin then ApexDB.handleRead g ready.read ready.write t conn
    else some (t, conn, [])) with
  | none => rfl
  | some r =>
    obtain ⟨t', conn', sent⟩ := r
    dsimp only [Option.map_some, Prod.map, id, Option.bind_eq_bind, Option.bind_some]
    cases (if ready.pollout ∧ ¬conn'.wantClose ∧ ¬conn'.outgoing.isEmpty then
      handleWrite ready.write' conn' else some (conn', [])) <;> rfl

end Mirrors

/-! ## 2. The calls of one connection

Whatever the rest of the loop does, the calls that a connection causes are made while it is
served. A connection that is closed by its own request stops in the middle of what arrived.
-/

/-- The handlers return, and what `on_request` appends has nothing to do with what the buffer
held; `P` is what they rely on and keep. -/
structure Replies (onRequest : RequestHandler σ) (onTimer : σ → Nat → Option σ) (P : σ → Prop) : Prop where
  request : ∀ s cmd, P s → ∃ s' body, (∀ out, onRequest s cmd out = some (s', out ++ body)) ∧ P s'
  timer : ∀ s now, P s → ∃ s', onTimer s now = some s' ∧ P s'

/-- The recorded handler passes on what the handler does. -/
theorem recorded_mirrors (onRequest : RequestHandler σ) :
    Mirrors (fun _ => True) Prod.fst (recorded onRequest) onRequest where
  call := by
    intro t cmd out _
    unfold recorded
    cases onRequest t.1 cmd out <;> rfl
  keep := fun _ _ _ _ _ _ _ => trivial

section Replies

variable {onRequest : RequestHandler σ} {onTimer : σ → Nat → Option σ} {P : σ → Prop}

theorem Replies.serves (hA : Replies onRequest onTimer P) : Serves onRequest onTimer P where
  request := by
    intro s cmd out hs
    obtain ⟨s', body, hrun, hs'⟩ := hA.request s cmd hs
    exact ⟨s', body, hrun out, hs'⟩
  timer := hA.timer

/-- Where `P` holds the handler is a plain function. -/
structure Plain (onRequest : RequestHandler σ) (P : σ → Prop) (h : Handler σ) : Prop where
  call : ∀ s cmd out, P s → onRequest s cmd out = some ((h s cmd).1, out ++ (h s cmd).2)
  keep : ∀ s cmd, P s → P (h s cmd).1

theorem Replies.exists_plain (hA : Replies onRequest onTimer P) : ∃ h : Handler σ, Plain onRequest P h := by
  have hone : ∀ s cmd, ∃ r : σ × Bytes, P s → (∀ out, onRequest s cmd out = some (r.1, out ++ r.2)) ∧ P r.1 := by
    intro s cmd
    by_cases hs : P s
    · obtain ⟨s', body, hrun, hs'⟩ := hA.request s cmd hs
      exact ⟨(s', body), fun _ => ⟨hrun, hs'⟩⟩
    · exact ⟨(s, []), fun h => absurd h hs⟩
  choose h hh using hone
  exact ⟨h, fun s cmd out hs => (hh s cmd hs).1 out, fun s cmd hs => (hh s cmd hs).2⟩

variable {h : Handler σ}

theorem Plain.mirrors (hp : Plain onRequest P h) :
    Mirrors (fun t => P t.1) Prod.fst h.onRequest onRequest where
  call := fun t cmd out ht => hp.call t.1 cmd out ht
  keep := by
    intro t cmd out t' out' ht hrun
    cases hrun
    exact hp.keep t.1 cmd ht

theorem Plain.mirrors_recorded (hp : Plain onRequest P h) :
    Mirrors (fun t => P t.1) (fun t => (t.1, t.2.map Prod.snd)) h.onRequest (recorded onRequest) where
  call := by
    intro t cmd out ht
    simp only [recorded, hp.call t.1 cmd out ht, Handler.onRequest]
    simp
  keep := hp.mirrors.keep

/-- These requests one after the other, without a connection. -/
theorem Plain.run_requests (hp : Plain onRequest P h) (onTimer : σ → Nat → Option σ) (c : ConnId) :
    ∀ (cmds : List (List Bytes)) (s : σ), P s →
      run (callStep onRequest onTimer) s (cmds.map (.request c)) =
          some (stateFrom h s cmds, (callsFrom h s cmds).map (response h)) ∧
        P (stateFrom h s cmds) := by
  intro cmds
  induction cmds with
  | nil => exact fun s hs => ⟨rfl, hs⟩
  | cons cmd cmds ih =>
    intro s hs
    obtain ⟨hrun, hs'⟩ := ih (h s cmd).1 (hp.keep s cmd hs)
    have hone : callStep onRequest onTimer s (.request c cmd) = some ((h s cmd).1, response h (s, cmd)) :=
      respond_spec [] (hp.call s cmd _ hs)
    refine ⟨?_, hs'⟩
    simp only [List.map_cons, run, hone, hrun, Option.bind_eq_bind, Option.bind_some]
    rfl

/-- **What serving a connection is**: the requests of what arrived are called for, one after the
other, and their responses join `outgoing`. -/
theorem serveConn_calls (hA : Replies onRequest onTimer P) {s : σ} (hs : P s) {conn : Conn}
    (hmore : requestCutter.cut conn.incoming = .more) (ready : Ready) (c : ConnId) :
    ∃ s' conn' sent outs, let d := requestCutter.drain (conn.incoming ++ ready.chunk)
      serveConn onRequest ready s conn = some (s', conn', sent, ready.pollerr || conn'.wantClose) ∧
      serveConn (recorded onRequest) ready (s, []) conn =
        some ((s', d.items), conn', sent, ready.pollerr || conn'.wantClose) ∧
      run (callStep onRequest onTimer) s (d.items.map (.request c)) = some (s', outs) ∧ P s' ∧
      conn'.incoming = d.rest ∧ sent ++ conn'.outgoing = conn.outgoing ++ outs.flatten ∧
      (d.bad = true → conn'.wantClose = true) := by
  obtain ⟨h, hp⟩ := hA.exists_plain
  obtain ⟨conn', sent, hserve, hin, hout, hbad, -⟩ := serveConn_spec h ready s [] hmore
  obtain ⟨hrun, hs'⟩ := hp.run_requests onTimer c (requestCutter.drain (conn.incoming ++ ready.chunk)).items s hs
  refine ⟨_, conn', sent, _, ?_, ?_, hrun, hs', hin, ?_, hbad⟩
  · have heq := hp.mirrors.serveConn (t := (s, [])) hs ready conn
    rw [hserve] at heq
    exact heq
  · have heq := hp.mirrors_recorded.serveConn (t := (s, [])) hs ready conn
    rw [hserve] at heq
    simpa [map_snd_callsFrom] using heq
  · rw [hout, List.flatMap_def]

end Replies

/-! ## 3. The part of one connection

A sequence of calls is filtered by connection; the responses are paired with the calls by their
places.
-/

section Part

variable {c d : ConnId} {calls calls' : List LoopCall} {outs outs' : List Bytes}

theorem requestsOf_append : requestsOf c (calls ++ calls') = requestsOf c calls ++ requestsOf c calls' :=
  List.filterMap_append

theorem requestsOf_requests (cmds : List (List Bytes)) :
    requestsOf c (cmds.map (.request d)) = if d = c then cmds else [] := by
  unfold requestsOf
  rw [List.filterMap_map]
  by_cases hd : d = c <;> simp [LoopCall.from?, hd]

theorem requestsOf_timer (now : Nat) : requestsOf c [.timer now] = [] := rfl

theorem responsesTo_append (hlen : outs.length = calls.length) :
    responsesTo c (calls ++ calls') (outs ++ outs') = responsesTo c calls outs ++ responsesTo c calls' outs' := by
  unfold responsesTo
  rw [List.zip_append hlen.symm, List.flatMap_append]

theorem responsesTo_of_no_request : ∀ {calls : List LoopCall} {outs : List Bytes},
    requestsOf c calls = [] → responsesTo c calls outs = [] := by
  intro calls
  induction calls with
  | nil => exact fun _ => rfl
  | cons call calls ih =>
    intro outs h
    cases outs with
    | nil => rfl
    | cons out outs =>
      unfold requestsOf at h
      rw [List.filterMap_cons] at h
      cases hfrom : call.from? c with
      | none =>
        rw [hfrom] at h
        simpa [responsesTo, hfrom] using @ih outs h
      | some cmd =>
        rw [hfrom] at h
        cases h

theorem responsesTo_requests : ∀ {cmds : List (List Bytes)} {outs : List Bytes}, outs.length = cmds.length →
    responsesTo c (cmds.map (.request d)) outs = if d = c then outs.flatten else [] := by
  intro cmds outs hlen
  by_cases hd : d = c
  · rw [if_pos hd]
    induction cmds generalizing outs with
    | nil =>
      rw [List.eq_nil_of_length_eq_zero hlen]
      rfl
    | cons cmd cmds ih =>
      obtain ⟨out, outs, rfl⟩ := List.exists_cons_of_length_eq_add_one hlen
      have hrest := ih (Nat.succ.inj hlen)
      simp only [responsesTo, List.map_cons, List.zip_cons_cons, List.flatMap_cons, List.flatten_cons] at hrest ⊢
      rw [hrest]
      simp [LoopCall.from?, hd]
  · rw [if_neg hd]
    exact responsesTo_of_no_request (by rw [requestsOf_requests, if_neg hd])

end Part

/-! ## 4. Watching changes nothing

`Watched` runs the same loop and keeps a record of bytes and calls beside it. The record is not
looked at, so the server inside goes as it would without.
-/

section Watch

variable (onRequest : RequestHandler σ) (onTimer : σ → Nat → Option σ)

theorem Watched.serveFd_srv (clk : Nat) (ready : Ready) (w : Watched σ) (fd : Nat) :
    (w.serveFd onRequest clk ready fd).map Watched.srv = ApexDB.serveFd onRequest clk ready w.srv fd := by
  unfold Watched.serveFd
  cases hslot : w.srv.fd2conn[fd]? with
  | none => simp [ApexDB.serveFd, hslot]
  | some slot =>
    cases slot with
    | none => simp [ApexDB.serveFd, hslot]
    | some c =>
      cases hread : w.srv.conns.read c with
      | none => simp [ApexDB.serveFd, hslot, hread]
      | some conn =>
        have hmirror := (recorded_mirrors onRequest).serveConn (t := (w.srv.state, [])) trivial ready conn.toConn
        cases hserve : serveConn (recorded onRequest) ready (w.srv.state, []) conn.toConn with
        | none =>
          rw [hserve] at hmirror
          rw [Option.map_none] at hmirror
          simp [ApexDB.serveFd, hslot, hread, hmirror]
        | some r =>
          simp only [hread, hserve, Option.bind_eq_bind, Option.bind_some]
          cases ApexDB.serveFd onRequest clk ready w.srv fd <;> rfl

theorem Watched.serveAll_srv : ∀ (entries : List (PollFd × Option (Nat × Ready))) (w : Watched σ),
    (w.serveAll onRequest entries).map Watched.srv = ApexDB.serveAll onRequest entries w.srv := by
  intro entries
  induction entries with
  | nil => exact fun w => rfl
  | cons entry entries ih =>
    intro w
    obtain ⟨pfd, ev⟩ := entry
    rw [Watched.serveAll, ApexDB.serveAll, List.foldlM_cons, List.foldlM_cons]
    cases ev with
    | none => exact ih w
    | some ev =>
      have hone := Watched.serveFd_srv onRequest ev.1 ev.2 w pfd.fd
      dsimp only [Option.elim_some]
      rw [← hone]
      cases w.serveFd onRequest ev.1 ev.2 pfd.fd with
      | none => rfl
      | some w' => exact ih w'

/-- **The server inside is the one that `iterate` makes.** Every step of a watched server is the
step without the record, and some more entries in it. -/
theorem Watched.iterate_srv (w : Watched σ) (it : Iteration) :
    (w.iterate onRequest onTimer it).map Watched.srv = ApexDB.iterate onRequest onTimer w.srv it := by
  cases it with
  | interrupted => rfl
  | polled r =>
    simp only [Watched.iterate, ApexDB.iterate, pollRound]
    cases pollArgs w.srv with
    | none => rfl
    | some args =>
      simp only [Option.bind_eq_bind, Option.bind_some]
      cases acceptIfReady r.accept w.srv with
      | none => rfl
      | some srv =>
        simp only [Option.bind_some]
        rw [← Watched.serveAll_srv onRequest (args.zip r.ready) { w with srv := srv }]
        cases Watched.serveAll onRequest (args.zip r.ready) { w with srv := srv } with
        | none => rfl
        | some w' =>
          simp only [Option.bind_some, Option.map_some]
          cases srvProcessTimers onTimer r.now w'.srv <;> rfl

theorem Watched.iterates_srv : ∀ (its : List Iteration) (w : Watched σ),
    (its.foldlM (Watched.iterate onRequest onTimer) w).map Watched.srv =
      its.foldlM (ApexDB.iterate onRequest onTimer) w.srv := by
  intro its
  induction its with
  | nil => exact fun w => rfl
  | cons it its ih =>
    intro w
    rw [List.foldlM_cons, List.foldlM_cons, ← Watched.iterate_srv onRequest onTimer w it]
    cases w.iterate onRequest onTimer it with
    | none => rfl
    | some w' => exact ih w'

end Watch

/-! ## 5. What every iteration keeps

An iteration is made of steps that concern one connection each: accepting one, serving one,
closing one. The invariant is stated for all connections that there ever were, so those that are
gone are in it too.
-/

theorem connDestroy_next {srv srv' : Srv σ} {c : ConnId} (hrun : connDestroy srv c = some srv') :
    srv'.conns.next = srv.conns.next := by
  obtain ⟨conn, hread, hrest⟩ := Option.bind_eq_some_iff.mp hrun
  obtain ⟨conns, hfree, hnext, -⟩ := Arena.free_spec hread
  split at hrest
  · cases hrest
  obtain ⟨links, -, hrest⟩ := Option.bind_eq_some_iff.mp hrest
  obtain ⟨conns', hfree', hlast⟩ := Option.bind_eq_some_iff.mp hrest
  rw [hfree] at hfree'
  cases hfree'
  cases hlast
  exact hnext

/-- What `accept` is, for the connections: at most there is a new one. -/
theorem acceptIfReady_reads {accept : Option AcceptResult} {srv srv' : Srv σ}
    (hrun : acceptIfReady accept srv = some srv') :
    (∀ d, srv'.conns.read d = srv.conns.read d ∨ d = srv.conns.next ∧ ∃ fd clk,
      srv'.conns.read d = some { Conn.new with fd := fd, lastActiveMs := clk }) ∧
    srv.conns.next ≤ srv'.conns.next ∧ srv'.state = srv.state := by
  unfold acceptIfReady at hrun
  split at hrun
  · rename_i connfd clk
    obtain ⟨links, -, hrest⟩ := Option.bind_eq_some_iff.mp hrun
    generalize (if srv.fd2conn.length ≤ connfd then resizeTo (connfd + 1) srv.fd2conn
      else srv.fd2conn) = fd2conn at hrest
    dsimp only at hrest
    split at hrest
    · cases hrest
    cases hrest
    refine ⟨fun d => ?_, Nat.le_succ _, rfl⟩
    have hget := Arena.read_alloc srv.conns { Conn.new with fd := connfd, lastActiveMs := clk } d
    split at hget
    · rename_i hnew
      exact .inr ⟨hnew, connfd, clk, hget⟩
    · exact .inl hget
  · cases hrun
    exact ⟨fun _ => .inl rfl, Nat.le_refl _, rfl⟩

/-- What `process_timers` is, for the connections: some are closed. -/
theorem closeIdle_reads {now : Nat} {srv srv' : Srv σ} (hrun : closeIdle now srv = some srv') :
    srv'.state = srv.state ∧ srv'.conns.next = srv.conns.next ∧
      ∀ c conn, srv'.conns.read c = some conn → srv.conns.read c = some conn := by
  refine loop_inv (fun b : Srv σ => b.state = srv.state ∧ b.conns.next = srv.conns.next ∧
      ∀ c conn, b.conns.read c = some conn → srv.conns.read c = some conn)
    (fun b : Srv σ => b.state = srv.state ∧ b.conns.next = srv.conns.next ∧
      ∀ c conn, b.conns.read c = some conn → srv.conns.read c = some conn) ?_ ?_
    ⟨rfl, rfl, fun _ _ => id⟩ hrun
  · rintro b b' ⟨hstate, hnext, hread⟩ hturn
    rcases idleTurn_cases hturn with heq | ⟨c, b₁, heq, hdestroy⟩
    · cases heq
    · cases heq
      obtain ⟨hget, hstate'⟩ := connDestroy_reads hdestroy
      refine ⟨hstate'.trans hstate, (connDestroy_next hdestroy).trans hnext, fun d conn hd => ?_⟩
      rw [hget] at hd
      split at hd
      · cases hd
      · exact hread d conn hd
  · rintro b b' hb hturn
    rcases idleTurn_cases hturn with heq | ⟨c, b₁, heq, -⟩
    · cases heq
      exact hb
    · cases heq

theorem serveFd_cases {onRequest : RequestHandler σ} {clk : Nat} {ready : Ready} {srv srv' : Srv σ} {fd : Nat}
    (hrun : serveFd onRequest clk ready srv fd = some srv') :
    ∃ c conn conn' sent destroyed, srv.fd2conn[fd]? = some (some c) ∧ srv.conns.read c = some conn ∧
      serveConn onRequest ready srv.state conn.toConn = some (srv'.state, conn', sent, destroyed) ∧
      srv'.conns.next = srv.conns.next ∧
      ∀ d, srv'.conns.read d =
        if d = c then (if destroyed then none else some { conn' with fd := conn.fd, lastActiveMs := clk })
        else srv.conns.read d := by
  obtain ⟨slot, hslot, hrest⟩ := Option.bind_eq_some_iff.mp hrun
  obtain ⟨c, hc, hrest⟩ := Option.bind_eq_some_iff.mp hrest
  obtain ⟨conn, hread, hrest⟩ := Option.bind_eq_some_iff.mp hrest
  obtain ⟨links, -, hrest⟩ := Option.bind_eq_some_iff.mp hrest
  obtain ⟨links', -, hrest⟩ := Option.bind_eq_some_iff.mp hrest
  obtain ⟨⟨s', conn', sent, destroyed⟩, hserve, hrest⟩ := Option.bind_eq_some_iff.mp hrest
  obtain ⟨conns, hwrite, hrest⟩ := Option.bind_eq_some_iff.mp hrest
  obtain ⟨conns', hwrite', hnext, hget⟩ :=
    Arena.write_spec hread { conn' with fd := conn.fd, lastActiveMs := clk }
  obtain rfl : conns' = conns := Option.some.inj (hwrite'.symm.trans hwrite)
  refine ⟨c, conn, conn', sent, destroyed, hslot.trans (congrArg some hc), hread, ?_⟩
  cases destroyed with
  | true =>
    obtain ⟨hreads, hstate⟩ := connDestroy_reads hrest
    refine ⟨?_, (connDestroy_next hrest).trans hnext, fun d => ?_⟩
    · rw [hstate]
      exact hserve
    · rw [hreads]
      dsimp only
      rw [hget]
      by_cases hd : d = c <;> simp [hd]
  | false =>
    cases hrest
    exact ⟨hserve, hnext, fun d => hget d⟩

/-- **What holds of a watched server**: the calls alone lead to its state, and each connection
has its part of them. -/
structure Watched.Inv (onRequest : RequestHandler σ) (onTimer : σ → Nat → Option σ) (s₀ : σ) (w : Watched σ)
    (outs : List Bytes) : Prop where
  order : run (callStep onRequest onTimer) s₀ w.calls = some (w.srv.state, outs)
  requests : ∀ c, requestsOf c w.calls = (requestCutter.drain (w.traffic c).received).items
  written : ∀ c, (w.traffic c).written <+: responsesTo c w.calls outs
  waiting : ∀ c conn, w.srv.conns.read c = some conn →
    conn.incoming = (requestCutter.drain (w.traffic c).received).rest ∧
    (requestCutter.drain (w.traffic c).received).bad = false ∧
    (w.traffic c).written ++ conn.outgoing = responsesTo c w.calls outs
  fresh : ∀ c, w.srv.conns.next ≤ c → w.traffic c = {}

section Inv

variable {onRequest : RequestHandler σ} {onTimer : σ → Nat → Option σ} {P : σ → Prop} {s₀ : σ}
  {w w' : Watched σ} {outs : List Bytes}

theorem Watched.inv_init {srv : Srv σ} (hinit : srvInit s₀ = some srv) :
    Watched.Inv onRequest onTimer s₀ { srv := srv } [] := by
  cases hinit
  refine ⟨rfl, fun c => ?_, fun c => List.nil_prefix, fun c conn hread => ?_, fun c _ => rfl⟩
  · rw [drain_nil]
    rfl
  · cases hread

/-- **One connection has read and written**; the others are as they were. -/
theorem Watched.Inv.carry (hinv : w.Inv onRequest onTimer s₀ outs) {c : ConnId} {conn : LoopConn}
    (hread : w.srv.conns.read c = some conn) {chunk sent outgoing : Bytes} {d : Drained UInt8 (List Bytes)}
    (hd : requestCutter.drain (conn.incoming ++ chunk) = d) {srv' : Srv σ} {outs' : List Bytes}
    (hcalls : run (callStep onRequest onTimer) w.srv.state (d.items.map (.request c)) =
      some (srv'.state, outs'))
    (hsent : sent ++ outgoing = conn.outgoing ++ outs'.flatten)
    (hnext : srv'.conns.next = w.srv.conns.next)
    (hothers : ∀ e, e ≠ c → srv'.conns.read e = w.srv.conns.read e)
    (hself : ∀ conn', srv'.conns.read c = some conn' →
      conn'.incoming = d.rest ∧ d.bad = false ∧ conn'.outgoing = outgoing) :
    Watched.Inv onRequest onTimer s₀
      { srv := srv', traffic := w.carry c chunk sent, calls := w.calls ++ d.items.map (.request c) }
      (outs ++ outs') := by
  obtain ⟨hin, hgood, hout⟩ := hinv.waiting c conn hread
  have hdrain := Cutter.drain_append chunk (w.traffic c).received hgood
  rw [← hin, hd] at hdrain
  have hlen := run_length hcalls
  rw [List.length_map] at hlen
  have hresp : ∀ e, responsesTo e (w.calls ++ d.items.map (.request c)) (outs ++ outs') =
      responsesTo e w.calls outs ++ if c = e then outs'.flatten else [] := by
    intro e
    rw [responsesTo_append (run_length hinv.order), responsesTo_requests hlen]
  have hmine : (w.traffic c).written ++ sent ++ outgoing = responsesTo c w.calls outs ++ outs'.flatten := by
    rw [← hout, List.append_assoc, hsent, ← List.append_assoc]
  refine ⟨run_append hcalls hinv.order, fun e => ?_, fun e => ?_, fun e conn' hread' => ?_, fun e he => ?_⟩
  · dsimp only [Watched.carry]
    rw [requestsOf_append, requestsOf_requests, hinv.requests]
    by_cases he : e = c
    · subst he
      rw [if_pos rfl, Function.update_self, hdrain]
    · rw [if_neg (Ne.symm he), Function.update_of_ne he, List.append_nil]
  · dsimp only [Watched.carry]
    rw [hresp]
    by_cases he : e = c
    · subst he
      rw [if_pos rfl, Function.update_self, ← hmine]
      exact List.prefix_append _ _
    · rw [if_neg (Ne.symm he), Function.update_of_ne he, List.append_nil]
      exact hinv.written e
  · dsimp only [Watched.carry] at hread' ⊢
    rw [hresp]
    by_cases he : e = c
    · subst he
      obtain ⟨hin', hgood', hout'⟩ := hself conn' hread'
      rw [Function.update_self, hdrain, if_pos rfl, hout']
      exact ⟨hin', hgood', hmine⟩
    · rw [hothers e he] at hread'
      rw [Function.update_of_ne he, if_neg (Ne.symm he), List.append_nil]
      exact hinv.waiting e conn' hread'
  · dsimp only [Watched.carry] at he ⊢
    rw [hnext] at he
    rw [Function.update_of_ne, hinv.fresh e he]
    rintro rfl
    exact absurd (Arena.lt_next hread) (Nat.not_lt.mpr he)

theorem Watched.Inv.serveFd (hA : Replies onRequest onTimer P) (hinv : w.Inv onRequest onTimer s₀ outs)
    (hs : P w.srv.state) {clk fd : Nat} {ready : Ready} (hrun : w.serveFd onRequest clk ready fd = some w') :
    ∃ outs', w'.Inv onRequest onTimer s₀ outs' ∧ P w'.srv.state := by
  obtain ⟨slot, hslot, hrest⟩ := Option.bind_eq_some_iff.mp hrun
  obtain ⟨c, hc, hrest⟩ := Option.bind_eq_some_iff.mp hrest
  obtain ⟨conn, hread, hrest⟩ := Option.bind_eq_some_iff.mp hrest
  obtain ⟨⟨⟨t, cmds⟩, conn₁, sent, gone⟩, hrec, hrest⟩ := Option.bind_eq_some_iff.mp hrest
  obtain ⟨srv', hserveFd, hlast⟩ := Option.bind_eq_some_iff.mp hrest
  cases hlast
  obtain ⟨c', conn', conn₂, sent', destroyed, hslot', hread', hserve, hnext, hget⟩ := serveFd_cases hserveFd
  obtain rfl : c = c' := by
    rw [hslot, hc] at hslot'
    exact Option.some.inj (Option.some.inj hslot')
  obtain rfl : conn = conn' := Option.some.inj (hread.symm.trans hread')
  obtain ⟨hin, hgood, -⟩ := hinv.waiting c conn hread
  have hmore : requestCutter.cut conn.incoming = .more := by
    rw [hin]
    exact Cutter.cut_drain_rest _ hgood
  obtain ⟨s', conn₃, sent₃, outs', hserve₃, hrec₃, hcalls, hs', hin₃, hout₃, hbad₃⟩ :=
    serveConn_calls hA hs hmore ready c
  -- the recorded run and the run of the server are this one
  rw [hserve] at hserve₃
  rw [hrec] at hrec₃
  cases hserve₃
  cases hrec₃
  refine ⟨outs ++ outs', hinv.carry hread rfl hcalls hout₃ hnext (fun e he => ?_) fun conn₁ hread₁ => ?_, hs'⟩
  · rw [hget, if_neg he]
  · rw [hget, if_pos rfl] at hread₁
    split at hread₁
    · cases hread₁
    · rename_i hlive
      cases hread₁
      refine ⟨hin₃, Bool.eq_false_iff.mpr fun hb => hlive ?_, rfl⟩
      rw [hbad₃ hb, Bool.or_true]

theorem Watched.Inv.serveAll (hA : Replies onRequest onTimer P) :
    ∀ {entries : List (PollFd × Option (Nat × Ready))} {w w' : Watched σ} {outs : List Bytes},
      w.Inv onRequest onTimer s₀ outs → P w.srv.state → w.serveAll onRequest entries = some w' →
      ∃ outs', w'.Inv onRequest onTimer s₀ outs' ∧ P w'.srv.state := by
  intro entries
  induction entries with
  | nil =>
    intro w w' outs hinv hs hrun
    cases hrun
    exact ⟨outs, hinv, hs⟩
  | cons entry entries ih =>
    intro w w' outs hinv hs hrun
    obtain ⟨pfd, ev⟩ := entry
    rw [Watched.serveAll, List.foldlM_cons] at hrun
    obtain ⟨w₁, hone, hrest⟩ := Option.bind_eq_some_iff.mp hrun
    cases ev with
    | none =>
      cases hone
      exact ih hinv hs hrest
    | some ev =>
      obtain ⟨outs₁, hinv₁, hs₁⟩ := hinv.serveFd hA hs hone
      exact ih hinv₁ hs₁ hrest

/-- A connection is accepted, with nothing received and nothing to answer. -/
theorem Watched.Inv.accept (hinv : w.Inv onRequest onTimer s₀ outs) {accept : Option AcceptResult}
    {srv' : Srv σ} (hrun : acceptIfReady accept w.srv = some srv') :
    Watched.Inv onRequest onTimer s₀ { w with srv := srv' } outs ∧ srv'.state = w.srv.state := by
  obtain ⟨hreads, hnext, hstate⟩ := acceptIfReady_reads hrun
  have horder := hinv.order
  rw [← hstate] at horder
  refine ⟨⟨horder, hinv.requests, hinv.written, fun c conn hread => ?_, fun c hc => ?_⟩, hstate⟩
  · rcases hreads c with hold | ⟨hnew, fd, clk, hconn⟩
    · exact hinv.waiting c conn (hold.symm.trans hread)
    · rw [show srv'.conns.read c = some conn from hread] at hconn
      cases hconn
      have hnone := hinv.fresh c (Nat.le_of_eq hnew.symm)
      have hasked := hinv.requests c
      dsimp only
      rw [hnone, drain_nil] at hasked ⊢
      exact ⟨rfl, rfl, (responsesTo_of_no_request hasked).symm⟩
  · exact hinv.fresh c (hnext.trans hc)

/-- `process_timers`: some connections are closed, and then there is a call. -/
theorem Watched.Inv.timers (hA : Replies onRequest onTimer P) (hinv : w.Inv onRequest onTimer s₀ outs)
    (hs : P w.srv.state) {now : Nat} {srv' : Srv σ} (hrun : srvProcessTimers onTimer now w.srv = some srv') :
    Watched.Inv onRequest onTimer s₀ { w with srv := srv', calls := w.calls ++ [.timer now] } (outs ++ [[]]) ∧
      P srv'.state := by
  obtain ⟨srv₁, hidle, hrest⟩ := Option.bind_eq_some_iff.mp hrun
  obtain ⟨s', htimer, hlast⟩ := Option.bind_eq_some_iff.mp hrest
  cases hlast
  obtain ⟨hstate, hnext, hread⟩ := closeIdle_reads hidle
  dsimp only at hstate hnext hread
  obtain ⟨s'', htimer', hs''⟩ := hA.timer w.srv.state now hs
  rw [hstate, htimer'] at htimer
  cases htimer
  have hlen := run_length hinv.order
  have hresp : ∀ c, responsesTo c (w.calls ++ [.timer now]) (outs ++ [[]]) = responsesTo c w.calls outs := by
    intro c
    rw [responsesTo_append hlen, responsesTo_of_no_request (requestsOf_timer now), List.append_nil]
  refine ⟨⟨?_, fun c => ?_, fun c => ?_, fun c conn hc => ?_, fun c hc => ?_⟩, hs''⟩
  · have hlast : run (callStep onRequest onTimer) w.srv.state [.timer now] = some (s', [[]]) := by
      simp [run, callStep, htimer']
    exact run_append hlast hinv.order
  · rw [requestsOf_append, requestsOf_timer, List.append_nil]
    exact hinv.requests c
  · rw [hresp]
    exact hinv.written c
  · rw [hresp]
    exact hinv.waiting c conn (hread c conn hc)
  · exact hinv.fresh c (hnext ▸ hc)

theorem Watched.Inv.iterate (hA : Replies onRequest onTimer P) (hinv : w.Inv onRequest onTimer s₀ outs)
    (hs : P w.srv.state) {it : Iteration} (hrun : w.iterate onRequest onTimer it = some w') :
    ∃ outs', w'.Inv onRequest onTimer s₀ outs' ∧ P w'.srv.state := by
  cases it with
  | interrupted =>
    cases hrun
    exact ⟨outs, hinv, hs⟩
  | polled r =>
    obtain ⟨args, -, hrest⟩ := Option.bind_eq_some_iff.mp hrun
    obtain ⟨srv₀, haccept, hrest⟩ := Option.bind_eq_some_iff.mp hrest
    obtain ⟨w₁, hserve, hrest⟩ := Option.bind_eq_some_iff.mp hrest
    obtain ⟨srv₂, htimers, hlast⟩ := Option.bind_eq_some_iff.mp hrest
    cases hlast
    obtain ⟨hinv₀, hstate⟩ := hinv.accept haccept
    obtain ⟨outs₁, hinv₁, hs₁⟩ := hinv₀.serveAll hA (hstate ▸ hs) hserve
    obtain ⟨hinv₂, hs₂⟩ := hinv₁.timers hA hs₁ htimers
    exact ⟨_, hinv₂, hs₂⟩

theorem Watched.Inv.iterates (hA : Replies onRequest onTimer P) :
    ∀ {its : List Iteration} {w w' : Watched σ} {outs : List Bytes}, w.Inv onRequest onTimer s₀ outs →
      P w.srv.state → its.foldlM (Watched.iterate onRequest onTimer) w = some w' →
      ∃ outs', w'.Inv onRequest onTimer s₀ outs' ∧ P w'.srv.state := by
  intro its
  induction its with
  | nil =>
    intro w w' outs hinv hs hrun
    cases hrun
    exact ⟨outs, hinv, hs⟩
  | cons it its ih =>
    intro w w' outs hinv hs hrun
    rw [List.foldlM_cons] at hrun
    obtain ⟨w₁, hone, hrest⟩ := Option.bind_eq_some_iff.mp hrun
    obtain ⟨outs₁, hinv₁, hs₁⟩ := hinv.iterate hA hs hone
    exact ih hinv₁ hs₁ hrest

theorem Watched.inv_run (hA : Replies onRequest onTimer P) (hs : P s₀) {srv₀ : Srv σ}
    (hinit : srvInit s₀ = some srv₀) {its : List Iteration} (hlegal : Legal onRequest onTimer srv₀ its) :
    ∃ w outs, its.foldlM (Watched.iterate onRequest onTimer) { srv := srv₀ } = some w ∧
      its.foldlM (ApexDB.iterate onRequest onTimer) srv₀ = some w.srv ∧
      w.Inv onRequest onTimer s₀ outs ∧ P w.srv.state := by
  obtain ⟨srv₁, hinit₁, htable, hstate⟩ := srvInit_spec s₀
  obtain rfl : srv₁ = srv₀ := Option.some.inj (hinit₁.symm.trans hinit)
  obtain ⟨srv, l, hrun, -⟩ := iterates_spec hA.serves htable (hstate ▸ hs) hlegal
  have hsame := Watched.iterates_srv onRequest onTimer its { srv := srv₁ }
  rw [hrun] at hsame
  obtain ⟨w, hw, hsrv⟩ := Option.map_eq_some_iff.mp hsame
  obtain ⟨outs, hinv, hs'⟩ := (Watched.inv_init hinit).iterates hA (hstate ▸ hs) hw
  exact ⟨w, outs, hw, hsrv ▸ hrun, hinv, hs'⟩

end Inv

/-! ## 6. Calls are only ever added

A call that was made stays where it is in the sequence, which is what it means that the order of
a longer run extends that of a shorter one.
-/

section Prefix

variable {onRequest : RequestHandler σ} {onTimer : σ → Nat → Option σ}

theorem Watched.serveAll_calls : ∀ {entries : List (PollFd × Option (Nat × Ready))} {w w' : Watched σ},
    w.serveAll onRequest entries = some w' → w.calls <+: w'.calls := by
  intro entries
  induction entries with
  | nil =>
    intro w w' hrun
    cases hrun
    exact List.prefix_rfl
  | cons entry entries ih =>
    intro w w' hrun
    obtain ⟨pfd, ev⟩ := entry
    rw [Watched.serveAll, List.foldlM_cons] at hrun
    obtain ⟨w₁, hone, hrest⟩ := Option.bind_eq_some_iff.mp hrun
    refine List.IsPrefix.trans ?_ (ih hrest)
    cases ev with
    | none =>
      cases hone
      exact List.prefix_rfl
    | some ev =>
      obtain ⟨slot, -, hone⟩ := Option.bind_eq_some_iff.mp hone
      obtain ⟨c, -, hone⟩ := Option.bind_eq_some_iff.mp hone
      obtain ⟨conn, -, hone⟩ := Option.bind_eq_some_iff.mp hone
      obtain ⟨served, -, hone⟩ := Option.bind_eq_some_iff.mp hone
      obtain ⟨srv', -, hone⟩ := Option.bind_eq_some_iff.mp hone
      cases hone
      exact List.prefix_append _ _

theorem Watched.iterate_calls {w w' : Watched σ} {it : Iteration}
    (hrun : w.iterate onRequest onTimer it = some w') : w.calls <+: w'.calls := by
  cases it with
  | interrupted =>
    cases hrun
    exact List.prefix_rfl
  | polled r =>
    obtain ⟨args, -, hrun⟩ := Option.bind_eq_some_iff.mp hrun
    obtain ⟨srv, -, hrun⟩ := Option.bind_eq_some_iff.mp hrun
    obtain ⟨w₁, hserve, hrun⟩ := Option.bind_eq_some_iff.mp hrun
    obtain ⟨srv', -, hrun⟩ := Option.bind_eq_some_iff.mp hrun
    cases hrun
    exact (Watched.serveAll_calls hserve).trans (List.prefix_append _ _)

theorem Watched.iterates_calls : ∀ {its : List Iteration} {w w' : Watched σ},
    its.foldlM (Watched.iterate onRequest onTimer) w = some w' → w.calls <+: w'.calls := by
  intro its
  induction its with
  | nil =>
    intro w w' hrun
    cases hrun
    exact List.prefix_rfl
  | cons it its ih =>
    intro w w' hrun
    rw [List.foldlM_cons] at hrun
    obtain ⟨w₁, hone, hrest⟩ := Option.bind_eq_some_iff.mp hrun
    exact (Watched.iterate_calls hone).trans (ih hrest)

end Prefix

/-! ## 7. One order for all

All that is said about one connection is said about every connection, with one sequence for all
of them.
-/

/-- **Many connections, one order.** Over any run of the event loop the calls of the handlers,
over all connections, are one sequence: run by itself, it leaves the handlers where the loop
left them. The calls for a connection are the requests it has sent, each once and in order, up
to the first wrong one; what it was sent is the front of their responses, and together with what
waits in `outgoing` it is all of them while the connection is open. What was called for in an
earlier part of the run comes first. -/
theorem requests_in_one_order {onRequest : RequestHandler σ} {onTimer : σ → Nat → Option σ} {P : σ → Prop}
    (hA : Replies onRequest onTimer P) {s₀ : σ} (hs : P s₀) {srv₀ : Srv σ} (hinit : srvInit s₀ = some srv₀)
    (its : List Iteration) (hlegal : Legal onRequest onTimer srv₀ its) :
    ∃ w outs, its.foldlM (Watched.iterate onRequest onTimer) { srv := srv₀ } = some w ∧
      its.foldlM (iterate onRequest onTimer) srv₀ = some w.srv ∧
      run (callStep onRequest onTimer) s₀ w.calls = some (w.srv.state, outs) ∧
      (∀ c, requestsOf c w.calls = (requestCutter.drain (w.traffic c).received).items) ∧
      (∀ c, (w.traffic c).written <+: responsesTo c w.calls outs) ∧
      (∀ c conn, w.srv.conns.read c = some conn →
        (w.traffic c).written ++ conn.outgoing = responsesTo c w.calls outs) ∧
      ∀ its₁ its₂, its = its₁ ++ its₂ → ∃ w₁,
        its₁.foldlM (Watched.iterate onRequest onTimer) { srv := srv₀ } = some w₁ ∧ w₁.calls <+: w.calls := by
  obtain ⟨w, outs, hrun, hsrv, hinv, -⟩ := Watched.inv_run hA hs hinit hlegal
  refine ⟨w, outs, hrun, hsrv, hinv.order, hinv.requests, hinv.written,
    fun c conn hread => (hinv.waiting c conn hread).2.2, ?_⟩
  rintro its₁ its₂ rfl
  rw [List.foldlM_append] at hrun
  obtain ⟨w₁, hrun₁, hrun₂⟩ := Option.bind_eq_some_iff.mp hrun
  exact ⟨w₁, hrun₁, Watched.iterates_calls hrun₂⟩

theorem tally_replies : Replies tallyRequest tallyTimer fun _ => True where
  request := fun n _ _ => ⟨n + 1, [UInt8.ofNat n], fun _ => rfl, trivial⟩
  timer := fun n _ _ => ⟨n, rfl, trivial⟩

theorem requests_in_one_order_two : ∃ srv₀, srvInit 0 = some srv₀ ∧
    Legal tallyRequest tallyTimer srv₀ twoClients ∧
    ∃ (w : Watched Nat) (outs : List Bytes), twoClients.foldlM (iterate tallyRequest tallyTimer) srv₀ = some w.srv ∧
      run (callStep tallyRequest tallyTimer) 0 w.calls = some (w.srv.state, outs) ∧
      w.calls = [.timer 20, .timer 40, .request 0 [bytes "a"], .request 1 [bytes "b"], .request 1 [bytes "c"],
        .timer 50] ∧
      (w.traffic 1).written <+: responsesTo 1 w.calls outs := by
  obtain ⟨srv₀, hinit⟩ : ∃ srv₀, srvInit 0 = some srv₀ := ⟨_, rfl⟩
  have hlegal : Legal tallyRequest tallyTimer srv₀ twoClients := by
    cases hinit
    exact legal_of_check (by decide +kernel)
  obtain ⟨w, outs, hrun, hsrv, horder, -, hwritten, -⟩ :=
    requests_in_one_order tally_replies trivial hinit twoClients hlegal
  refine ⟨srv₀, hinit, hlegal, w, outs, hsrv, horder, ?_, hwritten 1⟩
  cases hinit
  exact (Option.some.inj (congrArg (Option.map Watched.calls) hrun)).symm

end ApexDB
