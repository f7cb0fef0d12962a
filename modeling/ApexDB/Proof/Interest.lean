import ApexDB.Proof.EventLoop

/-!
# What `poll` is asked for

A connection waits for input or for room to write, never for both and never for neither. Which
of the two follows from its buffers: **`want_read` says that `outgoing` is empty, `want_write`
that it is not** (`Conn.Settled`). And what waits in `incoming` is not a request, so a client
that has sent one is not left to send another before it is answered.

`handle_read` calls `handle_write` itself, and the loop may call it again in the same round.
Each of the calls is specified as what it makes of a connection that is settled or about to be
closed; a connection that survives its round is settled.
-/

set_option autoImplicit false

namespace ApexDB

open Lib

variable {σ : Type}

/-! ## 1. One connection

The flags are set in two places: `handle_write` after a write, and `handle_read` when there is
something to write. Both lead to the same two states, and `want_close` may be set on the way to
either.
-/

/-- A whole frame is there, whatever its body. -/
def HasFrame (x : Bytes) : Prop := 4 ≤ x.length ∧ 4 + ofLe (x.take 4) ≤ x.length

/-- **A connection between two rounds**: what it waits for is decided by its `outgoing`, and its
`incoming` has no whole frame. -/
structure Conn.Settled (conn : Conn) : Prop where
  read : conn.wantRead = conn.outgoing.isEmpty
  write : conn.wantWrite = !conn.outgoing.isEmpty
  drained : cutRequest conn.incoming = .more

theorem Conn.settled_new : Conn.new.Settled := ⟨rfl, rfl, rfl⟩

/-- The loop around `try_one_request` has stopped for want of input. -/
theorem not_hasFrame_of_more {x : Bytes} (h : cutRequest x = .more) : ¬HasFrame x := by
  rintro ⟨hlen, hframe⟩
  unfold cutRequest at h
  rw [if_neg (Nat.not_lt.mpr hlen)] at h
  split at h
  · cases h
  split at h
  · omega
  split at h
  · cases h
  · cases h

theorem handleWrite_settled {w : WriteResult} {conn conn' : Conn} {sent : Bytes}
    (h : conn.wantClose = true ∨ conn.Settled) (hrun : handleWrite w conn = some (conn', sent)) :
    conn'.wantClose = true ∨ conn'.Settled := by
  unfold handleWrite at hrun
  split at hrun
  · cases hrun
  rename_i hne
  cases w with
  | again =>
    cases hrun
    exact h
  | error =>
    cases hrun
    exact .inl rfl
  | wrote n =>
    cases hrun
    rcases h with hclose | hs
    · left
      split
      · exact hclose
      · exact hclose
    · right
      split
      · -- all of it was written: back to reading
        rename_i hempty
        exact ⟨hempty.symm, by simp [hempty], hs.drained⟩
      · rename_i hleft
        refine ⟨?_, ?_, hs.drained⟩
        · rw [hs.read, Bool.eq_false_iff.mpr hne, Bool.eq_false_iff.mpr hleft]
        · rw [hs.write, Bool.eq_false_iff.mpr hne, Bool.eq_false_iff.mpr hleft]

section Serve

variable {onRequest : RequestHandler σ} {onTimer : σ → Nat → Option σ} {P : σ → Prop}

/-- What answering requests changes: the flags stay, and an answer is never empty. -/
structure Conn.Answered (conn conn' : Conn) : Prop where
  read : conn'.wantRead = conn.wantRead
  write : conn'.wantWrite = conn.wantWrite
  closing : conn.wantClose = true → conn'.wantClose = true
  outgoing : conn'.outgoing = [] → conn.outgoing = []

theorem frameOf_ne_nil (body : Bytes) : frameOf body ≠ [] := by
  intro hnil
  have hlen := congrArg List.length hnil
  rw [frameOf, List.length_append, length_le] at hlen
  exact absurd hlen (by simp)

/-- **The loop around `try_one_request`** leaves no whole request behind, or asks to close. -/
theorem requestLoop_settled (hserves : Serves onRequest onTimer P) {s s' : σ} (hs : P s)
    {conn conn' : Conn} {fuel : Nat}
    (hrun : loop (requestTurn onRequest) fuel (s, conn) = some (s', conn')) :
    P s' ∧ conn.Answered conn' ∧ (conn'.wantClose = true ∨ cutRequest conn'.incoming = .more) := by
  refine loop_inv (fun b : σ × Conn => P b.1 ∧ conn.Answered b.2)
    (fun b : σ × Conn => P b.1 ∧ conn.Answered b.2 ∧
      (b.2.wantClose = true ∨ cutRequest b.2.incoming = .more)) ?_ ?_
    (s := (s, conn)) ⟨hs, rfl, rfl, id, id⟩ hrun
  · rintro ⟨t, c⟩ b' ⟨ht, hc⟩ hturn
    rcases requestTurn_cases hserves ht c with ⟨-, heq⟩ | heq | ⟨t', body, rest, heq, ht', -⟩
    all_goals
      rw [heq] at hturn
      cases hturn
    refine ⟨ht', hc.read, hc.write, hc.closing, fun hnil => ?_⟩
    exact absurd (List.append_eq_nil_iff.mp hnil).2 (frameOf_ne_nil body)
  · rintro ⟨t, c⟩ b' ⟨ht, hc⟩ hturn
    rcases requestTurn_cases hserves ht c with ⟨hmore, heq⟩ | heq | ⟨t', body, rest, heq, -⟩
    all_goals
      rw [heq] at hturn
      cases hturn
    · exact ⟨ht, hc, .inr hmore⟩
    · exact ⟨ht, ⟨hc.read, hc.write, fun _ => rfl, hc.outgoing⟩, .inl rfl⟩

theorem handleRead_settled (hserves : Serves onRequest onTimer P) {s s' : σ} (hs : P s)
    {r : ReadResult} {w : WriteResult} {conn conn' : Conn} {sent : Bytes} (h : conn.Settled)
    (hrun : handleRead onRequest r w s conn = some (s', conn', sent)) :
    P s' ∧ (conn'.wantClose = true ∨ conn'.Settled) := by
  cases r with
  | again =>
    cases hrun
    exact ⟨hs, .inr h⟩
  | error =>
    cases hrun
    exact ⟨hs, .inl rfl⟩
  | eof =>
    cases hrun
    exact ⟨hs, .inl rfl⟩
  | data chunk =>
    obtain ⟨⟨t, c⟩, hloop, hrest⟩ := Option.bind_eq_some_iff.mp hrun
    obtain ⟨ht, hc, hend⟩ := requestLoop_settled hserves hs hloop
    dsimp only at hrest
    split at hrest
    · -- nothing to send, so nothing was waiting to be sent before
      rename_i hempty
      cases hrest
      refine ⟨ht, hend.imp_right fun hmore => ?_⟩
      have hbefore : conn.outgoing = [] := hc.outgoing (List.isEmpty_iff.mp hempty)
      refine ⟨hc.read.trans (h.read.trans ?_), hc.write.trans (h.write.trans ?_), hmore⟩
      · rw [hbefore, hempty]
        rfl
      · rw [hbefore, hempty]
        rfl
    · rename_i hne
      obtain ⟨⟨c', sent'⟩, hwrite, hlast⟩ := Option.bind_eq_some_iff.mp hrest
      cases hlast
      have hfull : c.outgoing.isEmpty = false := Bool.eq_false_iff.mpr hne
      have hflags : c.wantClose = true ∨ Conn.Settled { c with wantRead := false, wantWrite := true } :=
        hend.imp_right fun hmore => ⟨hfull.symm, by simp [hfull], hmore⟩
      exact ⟨ht, handleWrite_settled hflags hwrite⟩

/-- **A round leaves a connection settled**, or destroys it. -/
theorem serveConn_settled (hserves : Serves onRequest onTimer P) {s s' : σ} (hs : P s)
    {ready : Ready} {conn conn' : Conn} {sent : Bytes} {destroyed : Bool} (h : conn.Settled)
    (hrun : serveConn onRequest ready s conn = some (s', conn', sent, destroyed)) :
    P s' ∧ (destroyed = false → conn'.wantClose = false ∧ conn'.Settled) := by
  obtain ⟨⟨t, c, sent₁⟩, hread, hrest⟩ := Option.bind_eq_some_iff.mp hrun
  obtain ⟨⟨c', sent₂⟩, hwrite, hlast⟩ := Option.bind_eq_some_iff.mp hrest
  cases hlast
  have hc : P s' ∧ (c.wantClose = true ∨ c.Settled) := by
    split at hread
    · exact handleRead_settled hserves hs h hread
    · cases hread
      exact ⟨hs, .inr h⟩
  have hc' : conn'.wantClose = true ∨ conn'.Settled := by
    split at hwrite
    · exact handleWrite_settled hc.2 hwrite
    · cases hwrite
      exact hc.2
  refine ⟨hc.1, fun hlive => ?_⟩
  obtain ⟨-, hopen⟩ := Bool.or_eq_false_iff.mp hlive
  refine ⟨hopen, hc'.resolve_left ?_⟩
  rw [hopen]
  exact Bool.false_ne_true

end Serve

/-! ## 2. The server

The round works on one connection after another, and each keeps what holds of the others.
Connections that are closed leave, and a new one has empty buffers and is read from.
-/

def Srv.Settled (srv : Srv σ) : Prop :=
  ∀ c conn, srv.conns.read c = some conn → conn.wantClose = false ∧ conn.toConn.Settled

theorem connDestroy_reads {srv srv' : Srv σ} {c : ConnId} (hrun : connDestroy srv c = some srv') :
    (∀ d, srv'.conns.read d = if d = c then none else srv.conns.read d) ∧
      srv'.state = srv.state := by
  obtain ⟨conn, hread, hrest⟩ := Option.bind_eq_some_iff.mp hrun
  obtain ⟨conns, hfree, -, hget⟩ := Arena.free_spec hread
  split at hrest
  · cases hrest
  obtain ⟨links, -, hrest⟩ := Option.bind_eq_some_iff.mp hrest
  obtain ⟨conns', hfree', hlast⟩ := Option.bind_eq_some_iff.mp hrest
  rw [hfree] at hfree'
  cases hfree'
  cases hlast
  exact ⟨hget, rfl⟩

theorem Srv.Settled.connDestroy {srv srv' : Srv σ} {c : ConnId} (h : srv.Settled)
    (hrun : connDestroy srv c = some srv') : srv'.Settled ∧ srv'.state = srv.state := by
  obtain ⟨hget, hstate⟩ := connDestroy_reads hrun
  refine ⟨fun d conn hread => ?_, hstate⟩
  rw [hget] at hread
  split at hread
  · cases hread
  · exact h d conn hread

theorem Srv.Settled.handleAccept {srv srv' : Srv σ} {connfd clk : Nat} (h : srv.Settled)
    (hrun : handleAccept connfd clk srv = some srv') : srv'.Settled ∧ srv'.state = srv.state := by
  obtain ⟨links, -, hrest⟩ := Option.bind_eq_some_iff.mp hrun
  generalize (if srv.fd2conn.length ≤ connfd then resizeTo (connfd + 1) srv.fd2conn
    else srv.fd2conn) = fd2conn at hrest
  dsimp only at hrest
  split at hrest
  · cases hrest
  cases hrest
  refine ⟨fun d conn hread => ?_, rfl⟩
  have hget := Arena.read_alloc srv.conns { Conn.new with fd := connfd, lastActiveMs := clk } d
  rw [show (srv.conns.alloc _).1.read d = some conn from hread] at hget
  split at hget
  · cases hget
    exact ⟨rfl, Conn.settled_new⟩
  · exact h d conn hget.symm

section Round

variable {onRequest : RequestHandler σ} {onTimer : σ → Nat → Option σ} {P : σ → Prop}
  {srv srv' : Srv σ}

/-- **A connection that is ready is settled again**, or gone. -/
theorem Srv.Settled.serveFd (hserves : Serves onRequest onTimer P) (h : srv.Settled) (hs : P srv.state)
    {fd clk : Nat} {ready : Ready} (hrun : serveFd onRequest clk ready srv fd = some srv') :
    srv'.Settled ∧ P srv'.state := by
  obtain ⟨slot, -, hrest⟩ := Option.bind_eq_some_iff.mp hrun
  obtain ⟨c, -, hrest⟩ := Option.bind_eq_some_iff.mp hrest
  obtain ⟨conn, hread, hrest⟩ := Option.bind_eq_some_iff.mp hrest
  obtain ⟨links, -, hrest⟩ := Option.bind_eq_some_iff.mp hrest
  obtain ⟨links', -, hrest⟩ := Option.bind_eq_some_iff.mp hrest
  obtain ⟨⟨s', conn', sent, destroyed⟩, hserve, hrest⟩ := Option.bind_eq_some_iff.mp hrest
  obtain ⟨conns, hwrite, hrest⟩ := Option.bind_eq_some_iff.mp hrest
  obtain ⟨hs', hlive⟩ := serveConn_settled hserves hs (h c conn hread).2 hserve
  obtain ⟨conns', hwrite', -, hget⟩ :=
    Arena.write_spec hread { conn' with fd := conn.fd, lastActiveMs := clk }
  obtain rfl : conns' = conns := Option.some.inj (hwrite'.symm.trans hwrite)
  -- the others were not touched
  have hothers : ∀ d conn₁, d ≠ c → conns'.read d = some conn₁ →
      conn₁.wantClose = false ∧ conn₁.toConn.Settled := by
    intro d conn₁ hne hread₁
    rw [hget, if_neg hne] at hread₁
    exact h d conn₁ hread₁
  cases destroyed with
  | true =>
    obtain ⟨hreads, hstate⟩ := connDestroy_reads hrest
    refine ⟨fun d conn₁ hread₁ => ?_, hstate ▸ hs'⟩
    rw [hreads] at hread₁
    split at hread₁
    · cases hread₁
    · rename_i hne
      exact hothers d conn₁ hne hread₁
  | false =>
    cases hrest
    refine ⟨fun d conn₁ hread₁ => ?_, hs'⟩
    by_cases hd : d = c
    · have hself := hget d
      rw [if_pos hd, show conns'.read d = some conn₁ from hread₁] at hself
      cases hself
      exact hlive rfl
    · exact hothers d conn₁ hd hread₁

theorem Srv.Settled.serveAll (hserves : Serves onRequest onTimer P) :
    ∀ {entries : List (PollFd × Option (Nat × Ready))} {srv srv' : Srv σ}, srv.Settled → P srv.state →
      serveAll onRequest entries srv = some srv' → srv'.Settled ∧ P srv'.state := by
  intro entries
  induction entries with
  | nil =>
    intro srv srv' h hs hrun
    cases hrun
    exact ⟨h, hs⟩
  | cons entry entries ih =>
    intro srv srv' h hs hrun
    obtain ⟨pfd, ev⟩ := entry
    rw [ApexDB.serveAll, List.foldlM_cons] at hrun
    obtain ⟨srv₁, hone, hrest⟩ := Option.bind_eq_some_iff.mp hrun
    cases ev with
    | none =>
      cases hone
      exact ih h hs hrest
    | some ev =>
      obtain ⟨h₁, hs₁⟩ := h.serveFd hserves hs hone
      exact ih h₁ hs₁ hrest

/-- What a turn of `process_timers` is: it stops, or destroys a connection. -/
theorem idleTurn_cases {now : Nat} {turn : Turn (Srv σ) (Srv σ)} (hrun : idleTurn now srv = some turn) :
    turn = .done srv ∨ ∃ c srv', turn = .again srv' ∧ connDestroy srv c = some srv' := by
  obtain ⟨empty, -, hrest⟩ := Option.bind_eq_some_iff.mp hrun
  cases empty with
  | true =>
    cases hrest
    exact .inl rfl
  | false =>
    obtain ⟨node, -, hrest⟩ := Option.bind_eq_some_iff.mp hrest
    obtain ⟨addr, -, hrest⟩ := Option.bind_eq_some_iff.mp hrest
    cases addr with
    | idleList => cases hrest
    | idleNode c =>
      obtain ⟨conn, -, hrest⟩ := Option.bind_eq_some_iff.mp hrest
      split at hrest
      · cases hrest
        exact .inl rfl
      · obtain ⟨srv', hdestroy, hlast⟩ := Option.bind_eq_some_iff.mp hrest
        cases hlast
        exact .inr ⟨c, srv', rfl, hdestroy⟩

theorem Srv.Settled.closeIdle {now : Nat} (h : srv.Settled) (hs : P srv.state)
    (hrun : closeIdle now srv = some srv') : srv'.Settled ∧ P srv'.state := by
  refine loop_inv (fun b : Srv σ => b.Settled ∧ P b.state)
    (fun b : Srv σ => b.Settled ∧ P b.state) ?_ ?_ ⟨h, hs⟩ hrun
  · rintro b b' ⟨hb, hbs⟩ hturn
    rcases idleTurn_cases hturn with heq | ⟨c, b₁, heq, hdestroy⟩
    · cases heq
    · cases heq
      obtain ⟨hb', hstate⟩ := hb.connDestroy hdestroy
      exact ⟨hb', hstate ▸ hbs⟩
  · rintro b b' hb hturn
    rcases idleTurn_cases hturn with heq | ⟨c, b₁, heq, -⟩
    · cases heq
      exact hb
    · cases heq

theorem Srv.Settled.iterate (hserves : Serves onRequest onTimer P) (h : srv.Settled) (hs : P srv.state)
    {it : Iteration} (hrun : iterate onRequest onTimer srv it = some srv') :
    srv'.Settled ∧ P srv'.state := by
  cases it with
  | interrupted =>
    cases hrun
    exact ⟨h, hs⟩
  | polled r =>
    obtain ⟨srv₁, hround, htimers⟩ := Option.bind_eq_some_iff.mp hrun
    obtain ⟨args, -, hround⟩ := Option.bind_eq_some_iff.mp hround
    obtain ⟨srv₀, haccept, hserve⟩ := Option.bind_eq_some_iff.mp hround
    have h₀ : srv₀.Settled ∧ srv₀.state = srv.state := by
      unfold acceptIfReady at haccept
      split at haccept
      · exact h.handleAccept haccept
      · cases haccept
        exact ⟨h, rfl⟩
    obtain ⟨h₁, hs₁⟩ := h₀.1.serveAll hserves (h₀.2 ▸ hs) hserve
    obtain ⟨srv₂, hidle, htimers⟩ := Option.bind_eq_some_iff.mp htimers
    obtain ⟨s', htimer, hlast⟩ := Option.bind_eq_some_iff.mp htimers
    have h₁' : Srv.Settled { srv₁ with clock := r.now } := h₁
    have h₂ : srv₂.Settled ∧ P srv₂.state := h₁'.closeIdle hs₁ hidle
    obtain ⟨s'', htimer', hs''⟩ := hserves.timer srv₂.state r.now h₂.2
    rw [htimer] at htimer'
    cases htimer'
    cases hlast
    exact ⟨h₂.1, hs''⟩

theorem Srv.Settled.iterates (hserves : Serves onRequest onTimer P) :
    ∀ {its : List Iteration} {srv srv' : Srv σ}, srv.Settled → P srv.state →
      its.foldlM (ApexDB.iterate onRequest onTimer) srv = some srv' → srv'.Settled := by
  intro its
  induction its with
  | nil =>
    intro srv srv' h _ hrun
    cases hrun
    exact h
  | cons it its ih =>
    intro srv srv' h hs hrun
    rw [List.foldlM_cons] at hrun
    obtain ⟨srv₁, hone, hrest⟩ := Option.bind_eq_some_iff.mp hrun
    obtain ⟨h₁, hs₁⟩ := h.iterate hserves hs hone
    exact ih h₁ hs₁ hrest

/-- **What `poll` is asked for, in every run of the event loop.** When the entries for `poll`
are collected no connection is about to be closed; it is read from exactly if its `outgoing` is
empty, and written to exactly if it is not; no whole frame waits in its `incoming`. No iteration
faults, so the assertion of `handle_write` holds whenever it is called. -/
theorem poll_interest (hserves : Serves onRequest onTimer P) {s : σ} (hs : P s) (its : List Iteration) :
    ∃ srv₀, srvInit s = some srv₀ ∧ (Legal onRequest onTimer srv₀ its →
      ∃ srv args, its.foldlM (iterate onRequest onTimer) srv₀ = some srv ∧ pollArgs srv = some args ∧
        (∀ c conn, srv.conns.read c = some conn → conn.wantClose = false ∧
          (conn.wantRead = true ↔ conn.outgoing = []) ∧
          (conn.wantWrite = true ↔ conn.outgoing ≠ []) ∧ ¬HasFrame conn.incoming) ∧
        ∀ pfd ∈ args, ∃ c conn, srv.conns.read c = some conn ∧ pfd =
          { fd := conn.fd, pollin := conn.outgoing.isEmpty, pollout := !conn.outgoing.isEmpty }) := by
  obtain ⟨srv₀, hinit, h₀, hstate⟩ := srvInit_spec s
  refine ⟨srv₀, hinit, fun hlegal => ?_⟩
  obtain ⟨srv, l, hrun, h, -⟩ := iterates_spec hserves h₀ (hstate ▸ hs) hlegal
  have hsettled₀ : srv₀.Settled := by
    cases hinit
    intro c conn hread
    cases hread
  have hsettled : srv.Settled := hsettled₀.iterates hserves (hstate ▸ hs) hrun
  obtain ⟨args, hargs, -, hall⟩ := pollArgs_spec h
  refine ⟨srv, args, hrun, hargs, fun c conn hread => ?_, fun pfd hpfd => ?_⟩
  · obtain ⟨hopen, hc⟩ := hsettled c conn hread
    refine ⟨hopen, ?_, ?_, not_hasFrame_of_more hc.drained⟩
    · rw [hc.read, List.isEmpty_iff]
    · rw [hc.write, Bool.not_eq_true', ← Bool.not_eq_true, List.isEmpty_iff]
  · obtain ⟨c, conn, -, hread, rfl⟩ := hall pfd hpfd
    obtain ⟨-, hc⟩ := hsettled c conn hread
    exact ⟨c, conn, hread, by rw [hc.read, hc.write]⟩

end Round

/-- A handler that answers with the number of its calls so far, and a timer that leaves it
alone. -/
def tallyRequest : RequestHandler Nat := fun n _ out => some (n + 1, out ++ [UInt8.ofNat n])

def tallyTimer : Nat → Nat → Option Nat := fun n _ => some n

theorem tally_serves : Serves tallyRequest tallyTimer fun _ => True where
  request := fun n _ _ _ => ⟨n + 1, [UInt8.ofNat n], rfl, trivial⟩
  timer := fun n _ _ => ⟨n, rfl, trivial⟩

/-- Two clients: one sends a request in two pieces, and between them the other sends two at once
and reads little. -/
def twoClients : List Iteration :=
  let first := encodeRequest [bytes "a"]
  [.polled { accept := some (.accepted 3 10), ready := [], now := 20 },
    .polled
      { accept := some (.accepted 5 25)
        ready := [some (30, ⟨true, false, false, .data (first.take 6), .again, .again⟩)]
        now := 40 },
    .polled
      { accept := none
        ready := [some (41, ⟨true, false, false, .data (first.drop 6), .wrote 100, .again⟩),
          some (42, ⟨true, false, false, .data (encodeRequest [bytes "b"] ++ encodeRequest [bytes "c"]),
            .wrote 2, .again⟩)]
        now := 50 }]

/-- The first client has had its answer and is read from; the second one has not, and is written
to. -/
theorem poll_interest_two :
    ∃ srv₀, srvInit 0 = some srv₀ ∧ Legal tallyRequest tallyTimer srv₀ twoClients ∧
      ∃ srv, twoClients.foldlM (iterate tallyRequest tallyTimer) srv₀ = some srv ∧
        pollArgs srv = some [{ fd := 3, pollin := true, pollout := false }, { fd := 5, pollin := false, pollout := true }] ∧
        ∀ c conn, srv.conns.read c = some conn → conn.wantClose = false ∧
          (conn.wantRead = true ↔ conn.outgoing = []) ∧
          (conn.wantWrite = true ↔ conn.outgoing ≠ []) ∧ ¬HasFrame conn.incoming := by
  obtain ⟨srv₀, hinit, hrun⟩ := poll_interest tally_serves (s := 0) trivial twoClients
  have hlegal : Legal tallyRequest tallyTimer srv₀ twoClients := by
    cases hinit
    exact legal_of_check (by decide +kernel)
  obtain ⟨srv, args, hfold, hargs, hconns, -⟩ := hrun hlegal
  refine ⟨srv₀, hinit, hlegal, srv, hfold, ?_, hconns⟩
  cases hinit
  exact (congrArg (Option.bind · pollArgs) hfold).symm.trans rfl

end ApexDB
