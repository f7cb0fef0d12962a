import ApexDB.Proof.Connections
import ApexDB.Proof.ServerLoop

/-!
# The event loop

That the loop over `poll_args` never meets a null pointer has to do with the whole round: its
entries are taken from `fd2conn` before anything happens, no two have the same descriptor,
`accept` only adds one, and an entry's own turn is the only one that can clear its slot.

`process_timers` stops at the first connection that is not idle for long. In a sorted list the
rest is not either, **as long as the sums of `uint64_t` do not wrap**; within five seconds of
2^64 they do.

The state that the handlers work on is a parameter, with a property `P` that they keep
(`Serves`). For a node and for a shard it is that their store stands for a map.
-/

set_option autoImplicit false

namespace ApexDB

open Lib

variable {σ : Type}

/-! ## 1. Handlers that return

The bytes that came in are cut into requests, and each is handed to the handler; what is left is
part of one more. The number of bytes goes down with every request, so the loop ends.
-/

/-- The handlers return, whatever the request, and append their answer to the buffer; `P` is
what they rely on and keep. -/
structure Serves (onRequest : RequestHandler σ) (onTimer : σ → Nat → Option σ) (P : σ → Prop) : Prop where
  request : ∀ s cmd out, P s → ∃ s' body, onRequest s cmd out = some (s', out ++ body) ∧ P s'
  timer : ∀ s now, P s → ∃ s', onTimer s now = some s' ∧ P s'

section Serve

variable {onRequest : RequestHandler σ} {onTimer : σ → Nat → Option σ} {P : σ → Prop}

/-- **What a turn of the loop around `try_one_request` is**: it waits for more, it gives the
connection up, or it answers a request. -/
theorem requestTurn_cases (hserves : Serves onRequest onTimer P) {s : σ} (hs : P s) (conn : Conn) :
    (cutRequest conn.incoming = .more ∧ requestTurn onRequest (s, conn) = some (.done (s, conn))) ∨
    requestTurn onRequest (s, conn) = some (.done (s, { conn with wantClose := true })) ∨
    ∃ s' body rest, requestTurn onRequest (s, conn) = some (.again
        (s', { conn with outgoing := conn.outgoing ++ frameOf body, incoming := rest })) ∧
      P s' ∧ rest.length < conn.incoming.length := by
  have htry := tryOneRequest_eq onRequest s conn
  cases hcut : cutRequest conn.incoming with
  | more =>
    rw [hcut] at htry
    exact .inl ⟨rfl, by simp only [requestTurn, htry]; rfl⟩
  | bad =>
    rw [hcut] at htry
    exact .inr (.inl (by simp only [requestTurn, htry]; rfl))
  | item cmd rest =>
    obtain ⟨s', body, hrun, hs'⟩ := hserves.request s cmd (conn.outgoing ++ le 4 0) hs
    rw [hcut] at htry
    dsimp only at htry
    rw [respond_spec conn.outgoing hrun] at htry
    exact .inr (.inr ⟨s', body, rest, by simp only [requestTurn, htry]; rfl, hs',
      requestCutter.shrinks hcut⟩)

/-- Every complete request is answered. -/
theorem requestLoop_total (hserves : Serves onRequest onTimer P) {s : σ} (hs : P s) (conn : Conn) :
    ∃ b, loop (requestTurn onRequest) (conn.incoming.length + 1) (s, conn) = some b ∧ P b.1 := by
  refine loop_total _ (fun b : σ × Conn => P b.1) (fun b => b.2.incoming.length)
    (fun b : σ × Conn => P b.1) ?_ _ _ hs (Nat.lt_succ_self _)
  rintro ⟨s, conn⟩ hs
  rcases requestTurn_cases hserves hs conn with ⟨-, hturn⟩ | hturn | ⟨s', body, rest, hturn, hs', hlt⟩
  · exact .inr ⟨_, hturn, hs⟩
  · exact .inr ⟨_, hturn, hs⟩
  · exact .inl ⟨_, hturn, hs', hlt⟩

theorem handleRead_total (hserves : Serves onRequest onTimer P) {s : σ} (hs : P s) (r : ReadResult)
    (w : WriteResult) (conn : Conn) :
    ∃ s' conn' sent, handleRead onRequest r w s conn = some (s', conn', sent) ∧ P s' := by
  cases r with
  | again => exact ⟨_, _, _, rfl, hs⟩
  | error => exact ⟨_, _, _, rfl, hs⟩
  | eof => exact ⟨_, _, _, rfl, hs⟩
  | data chunk =>
    obtain ⟨⟨s', conn₁⟩, hloop, hs'⟩ :=
      requestLoop_total hserves hs { conn with incoming := conn.incoming ++ chunk }
    simp only [handleRead, hloop, Option.bind_eq_bind, Option.bind_some]
    by_cases hempty : conn₁.outgoing.isEmpty
    · exact ⟨s', conn₁, [], by rw [if_pos hempty]; rfl, hs'⟩
    · obtain ⟨conn', sent, hw, -⟩ := handleWrite_spec w
        { conn₁ with wantRead := false, wantWrite := true } (Bool.eq_false_iff.mpr hempty)
      exact ⟨s', conn', sent, by rw [if_neg hempty, hw]; rfl, hs'⟩

/-- **A connection that is ready is served**, whatever the calls return. -/
theorem serveConn_total (hserves : Serves onRequest onTimer P) {s : σ} (hs : P s) (ready : Ready)
    (conn : Conn) :
    ∃ s' conn' sent destroyed,
      serveConn onRequest ready s conn = some (s', conn', sent, destroyed) ∧ P s' := by
  obtain ⟨s', conn₁, sent₁, hread, hs'⟩ : ∃ s' conn₁ sent₁,
      (if ready.pollin then handleRead onRequest ready.read ready.write s conn else some (s, conn, [])) =
        some (s', conn₁, sent₁) ∧ P s' := by
    split
    · exact handleRead_total hserves hs ready.read ready.write conn
    · exact ⟨s, conn, [], rfl, hs⟩
  obtain ⟨conn₂, sent₂, hwrite⟩ : ∃ conn₂ sent₂,
      (if ready.pollout ∧ ¬conn₁.wantClose ∧ ¬conn₁.outgoing.isEmpty then
        handleWrite ready.write' conn₁ else some (conn₁, [])) = some (conn₂, sent₂) := by
    split
    · rename_i hp
      obtain ⟨conn₂, sent₂, hrun, -⟩ := handleWrite_spec ready.write' conn₁ (Bool.eq_false_iff.mpr hp.2.2)
      exact ⟨conn₂, sent₂, hrun⟩
    · exact ⟨conn₁, [], rfl⟩
  refine ⟨s', conn₂, sent₁ ++ sent₂, ready.pollerr || conn₂.wantClose, ?_, hs'⟩
  simp only [serveConn, hread, hwrite, Option.bind_eq_bind, Option.bind_some]
  rfl

end Serve

/-! ## 2. One iteration

An iteration collects the entries, accepts, serves those that are ready and looks at the timers.
Until the turn of an entry comes there are only `accept` and the turns of other entries, and
none of these clears its slot; the induction is over the entries still to come.
-/

section Round

variable {onRequest : RequestHandler σ} {onTimer : σ → Nat → Option σ} {P : σ → Prop}
  {srv : Srv σ} {l : List ConnId}

/-- **An entry that is ready**: its connection is there, and no other slot of the table changes.
-/
theorem serveFd_spec (hserves : Serves onRequest onTimer P) (h : srv.Table l) (hs : P srv.state)
    {fd clk : Nat} {c : ConnId} (hfd : srv.fd2conn[fd]? = some (some c)) (hclk : srv.clock ≤ clk)
    (ready : Ready) :
    ∃ srv' l', serveFd onRequest clk ready srv fd = some srv' ∧ srv'.Table l' ∧ P srv'.state ∧
      srv'.clock = clk ∧ ∀ fd', fd' ≠ fd → srv'.fd2conn[fd']? = srv.fd2conn[fd']? := by
  obtain ⟨conn, hread, rfl⟩ := (h.slots.table fd c).mp hfd
  obtain ⟨s', conn', sent, destroyed, hserve, hs'⟩ := serveConn_total hserves hs ready conn.toConn
  obtain ⟨links, links', conns, hdetach, hins, hwrite, hself, htouch⟩ :=
    h.touch hread { conn' with fd := conn.fd, lastActiveMs := clk } rfl hclk s'
  have hrun : serveFd onRequest clk ready srv conn.fd =
      if destroyed then connDestroy { srv with state := s', conns := conns, links := links', clock := clk } c
      else some { srv with state := s', conns := conns, links := links', clock := clk } := by
    simp only [serveFd, hfd, hread, hdetach, hins, hserve, hwrite, Option.bind_eq_bind, Option.bind_some]
    rfl
  rw [hrun]
  by_cases hd : destroyed
  · rw [if_pos hd]
    obtain ⟨srv', hdestroy, htable, -, hslots, hstate, hclock⟩ := connDestroy_spec htouch hself
    exact ⟨srv', _, hdestroy, htable, hstate ▸ hs', hclock, hslots⟩
  · rw [if_neg hd]
    exact ⟨_, _, rfl, htouch, hs', rfl, fun _ _ => rfl⟩

theorem pollEntries_spec (srv : Srv σ) : ∀ {cs : List ConnId},
    (∀ c ∈ cs, ∃ conn, srv.conns.read c = some conn) →
    cs.Pairwise (fun c d => ∀ conn conn', srv.conns.read c = some conn → srv.conns.read d = some conn' →
      conn.fd ≠ conn'.fd) →
    ∃ args, (cs.mapM fun conn => do
        let c ← srv.conns.read conn
        return ({ fd := c.fd, pollin := c.wantRead, pollout := c.wantWrite } : PollFd)) = some args ∧
      (args.map PollFd.fd).Nodup ∧
      ∀ pfd ∈ args, ∃ c ∈ cs, ∃ conn, srv.conns.read c = some conn ∧
        pfd = { fd := conn.fd, pollin := conn.wantRead, pollout := conn.wantWrite } := by
  intro cs
  induction cs with
  | nil => exact fun _ _ => ⟨[], rfl, List.nodup_nil, nofun⟩
  | cons c cs ih =>
    intro hread hdistinct
    obtain ⟨hfirst, hrest⟩ := List.pairwise_cons.mp hdistinct
    obtain ⟨conn, hconn⟩ := hread c List.mem_cons_self
    obtain ⟨args, hrun, hnodup, hall⟩ := ih (fun d hd => hread d (List.mem_cons_of_mem _ hd)) hrest
    refine ⟨{ fd := conn.fd, pollin := conn.wantRead, pollout := conn.wantWrite } :: args, ?_, ?_, ?_⟩
    · rw [List.mapM_cons, hrun, hconn]
      rfl
    · refine List.nodup_cons.mpr ⟨fun hmem => ?_, hnodup⟩
      obtain ⟨pfd, hpfd, heq⟩ := List.mem_map.mp hmem
      obtain ⟨d, hd, conn', hconn', rfl⟩ := hall pfd hpfd
      exact hfirst d hd conn conn' hconn hconn' heq.symm
    · intro pfd hpfd
      rcases List.mem_cons.mp hpfd with rfl | hpfd
      · exact ⟨c, List.mem_cons_self, conn, hconn, rfl⟩
      · obtain ⟨d, hd, hex⟩ := hall pfd hpfd
        exact ⟨d, List.mem_cons_of_mem _ hd, hex⟩

/-- **Every entry of `poll_args` has a connection, and no two have one descriptor.** -/
theorem pollArgs_spec (h : srv.Table l) :
    ∃ args, pollArgs srv = some args ∧ (args.map PollFd.fd).Nodup ∧
      ∀ pfd ∈ args, ∃ c conn, srv.fd2conn[pfd.fd]? = some (some c) ∧
        srv.conns.read c = some conn ∧
        pfd = { fd := conn.fd, pollin := conn.wantRead, pollout := conn.wantWrite } := by
  have hread : ∀ c ∈ srv.fd2conn.filterMap id, ∃ conn, srv.conns.read c = some conn := by
    intro c hc
    obtain ⟨v, hv, rfl⟩ := List.mem_filterMap.mp hc
    obtain ⟨i, hi⟩ := List.mem_iff_getElem?.mp hv
    obtain ⟨conn, hconn, -⟩ := (h.slots.table i c).mp hi
    exact ⟨conn, hconn⟩
  -- the slots are visited in order, and a connection is in the slot of its descriptor
  have hslot : ∀ (i : Nat) (hi : i < srv.fd2conn.length) c conn, srv.fd2conn[i] = some c →
      srv.conns.read c = some conn → conn.fd = i := by
    intro i hi c conn hc hconn
    obtain ⟨conn', hconn', hfd⟩ := (h.slots.table i c).mp (by rw [List.getElem?_eq_getElem hi, hc])
    rw [hconn] at hconn'
    cases hconn'
    exact hfd
  obtain ⟨args, hrun, hnodup, hall⟩ := pollEntries_spec srv hread (by
    rw [List.pairwise_filterMap, List.pairwise_iff_getElem]
    intro i j hi hj hij c hc d hd conn conn' hconn hconn' heq
    rw [hslot i hi c conn hc hconn, hslot j hj d conn' hd hconn'] at heq
    exact absurd heq (Nat.ne_of_lt hij))
  refine ⟨args, hrun, hnodup, fun pfd hpfd => ?_⟩
  obtain ⟨c, -, conn, hconn, rfl⟩ := hall pfd hpfd
  exact ⟨c, conn, (h.slots.table conn.fd c).mpr ⟨conn, hconn, rfl⟩, hconn, rfl⟩

def readyClocks (ready : List (Option (Nat × Ready))) : List Nat := ready.filterMap (Option.map Prod.fst)

/-- **The loop over `poll_args`.** The induction is on the entries still to come: their
connections are in the table, and their readings of the clock are not earlier than the last one.
-/
theorem serveAll_spec (hserves : Serves onRequest onTimer P) :
    ∀ {args : List PollFd} {ready : List (Option (Nat × Ready))} {srv : Srv σ} {l : List ConnId},
    srv.Table l → P srv.state → (args.map PollFd.fd).Nodup →
    (∀ pfd ∈ args, ∃ c, srv.fd2conn[pfd.fd]? = some (some c)) →
    (srv.clock :: readyClocks ready).Pairwise (· ≤ ·) →
    ∃ srv' l', serveAll onRequest (args.zip ready) srv = some srv' ∧ srv'.Table l' ∧ P srv'.state ∧
      srv'.clock ∈ srv.clock :: readyClocks ready := by
  intro args
  induction args with
  | nil =>
    intro ready srv l h hs _ _ _
    exact ⟨srv, l, rfl, h, hs, List.mem_cons_self⟩
  | cons pfd args ih =>
    intro ready srv l h hs hnodup hall hclock
    obtain ⟨hfirst, hnodup⟩ := List.nodup_cons.mp hnodup
    cases ready with
    | nil => exact ⟨srv, l, rfl, h, hs, List.mem_cons_self⟩
    | cons ev ready =>
      cases ev with
      | none => exact ih h hs hnodup (fun p hp => hall p (List.mem_cons_of_mem _ hp)) hclock
      | some ev =>
        obtain ⟨clk, ready₁⟩ := ev
        obtain ⟨hle, hrest⟩ := List.pairwise_cons.mp hclock
        obtain ⟨c, hc⟩ := hall pfd List.mem_cons_self
        obtain ⟨srv₁, l₁, hserve, h₁, hs₁, hclk₁, hkeep⟩ :=
          serveFd_spec hserves h hs hc (hle clk List.mem_cons_self) ready₁
        have hall₁ : ∀ p ∈ args, ∃ c, srv₁.fd2conn[p.fd]? = some (some c) := by
          intro p hp
          have hne : p.fd ≠ pfd.fd := fun heq => hfirst (heq ▸ List.mem_map_of_mem hp)
          rw [hkeep p.fd hne]
          exact hall p (List.mem_cons_of_mem _ hp)
        obtain ⟨srv', l', hrun, h', hs', hmem⟩ := ih h₁ hs₁ hnodup hall₁ (by rw [hclk₁]; exact hrest)
        refine ⟨srv', l', ?_, h', hs', List.mem_cons_of_mem _ ?_⟩
        · rw [List.zip_cons_cons, serveAll, List.foldlM_cons]
          simp only [hserve]
          exact hrun
        · rw [hclk₁] at hmem
          exact hmem

def Round.clocks (r : Round) : List Nat :=
  (match r.accept with
  | some (.accepted _ clk) => [clk]
  | _ => []) ++ readyClocks r.ready ++ [r.now]

/-- **What the kernel may report**: the clock does not go back, and a descriptor that `accept`
returns was not open. -/
structure Round.Possible (srv : Srv σ) (r : Round) : Prop where
  clock : (srv.clock :: r.clocks).Pairwise (· ≤ ·)
  range : ∀ t ∈ r.clocks, t < 2 ^ 64
  fresh : ∀ connfd clk, r.accept = some (.accepted connfd clk) → connfd ∉ srv.fds

/-- What holds after `accept`, for the entries that were collected before it. -/
theorem acceptIfReady_spec (h : srv.Table l) (hs : P srv.state) {r : Round} (hr : r.Possible srv) :
    ∃ srv' l', acceptIfReady r.accept srv = some srv' ∧ srv'.Table l' ∧ P srv'.state ∧
      (∀ (fd : Nat) c, srv.fd2conn[fd]? = some (some c) → srv'.fd2conn[fd]? = some (some c)) ∧
      (srv'.clock :: (readyClocks r.ready ++ [r.now])).Pairwise (· ≤ ·) := by
  have hclock := hr.clock
  unfold Round.clocks at hclock
  cases hacc : r.accept with
  | none =>
    rw [hacc] at hclock
    exact ⟨srv, l, rfl, h, hs, fun _ _ => id, hclock⟩
  | some result =>
    rw [hacc] at hclock
    cases result with
    | failed => exact ⟨srv, l, rfl, h, hs, fun _ _ => id, hclock⟩
    | accepted connfd clk =>
      obtain ⟨hle, hrest⟩ := List.pairwise_cons.mp hclock
      obtain ⟨srv', hrun, h', hkeep, hstate, hclk⟩ :=
        handleAccept_spec h (hr.fresh connfd clk hacc) (hle clk (by simp))
      exact ⟨srv', _, hrun, h', hstate ▸ hs, hkeep, hclk ▸ hrest⟩

/-- **An iteration up to `process_timers`**: no lookup fails, the handlers keep what they rely
on, and the table is right afterwards. -/
theorem pollRound_spec (hserves : Serves onRequest onTimer P) (h : srv.Table l) (hs : P srv.state)
    {r : Round} (hr : r.Possible srv) :
    ∃ srv' l', pollRound onRequest srv r = some srv' ∧ srv'.Table l' ∧ P srv'.state ∧
      srv'.clock ≤ r.now := by
  obtain ⟨args, hargs, hnodup, hall⟩ := pollArgs_spec h
  obtain ⟨srv₁, l₁, hacc, h₁, hs₁, hkeep, hclock⟩ := acceptIfReady_spec h hs hr
  rw [← List.cons_append, List.pairwise_append] at hclock
  have hall₁ : ∀ pfd ∈ args, ∃ c, srv₁.fd2conn[pfd.fd]? = some (some c) := by
    intro pfd hpfd
    obtain ⟨c, -, hc, -⟩ := hall pfd hpfd
    exact ⟨c, hkeep pfd.fd c hc⟩
  obtain ⟨srv', l', hrun, h', hs', hmem⟩ := serveAll_spec hserves h₁ hs₁ hnodup hall₁ hclock.1
  refine ⟨srv', l', ?_, h', hs', hclock.2.2 _ hmem _ List.mem_cons_self⟩
  simp only [pollRound, hargs, hacc, Option.bind_eq_bind, Option.bind_some]
  exact hrun

/-! ## 3. Idle connections

A connection in the list is `overdue` when its sum is below the clock. Along the list the last
activity does not decrease, so being overdue is inherited by what is in front.
-/

/-- The test of `process_timers` at a connection: its last activity plus the timeout, added up
as a `uint64_t`, is before now. -/
def overdue (now : Nat) (active : ConnId → Nat) (c : ConnId) : Bool :=
  decide ((active c + kIdleTimeoutMs) % 2 ^ 64 < now)

theorem Srv.Table.idle_nil (h : srv.Table []) : dlistEmpty srv.links .idleList = some true := by
  have hnext : nextOf srv.links .idleList = some .idleList := h.list.ring.next_self.mpr rfl
  obtain ⟨d, hd⟩ := Option.isSome_iff_exists.mp (isSome_of_nextOf hnext)
  rw [nextOf, hd] at hnext
  rw [dlistEmpty, hd]
  exact congrArg some (decide_eq_true hnext)

theorem Srv.Table.idle_cons {c : ConnId} (h : srv.Table (c :: l)) :
    ∃ d conn, dlistEmpty srv.links .idleList = some false ∧ srv.links .idleList = some d ∧
      d.next = some (.idleNode c) ∧ srv.conns.read c = some conn ∧ srv.activeAt c = conn.lastActiveMs := by
  have hnext : nextOf srv.links .idleList = some (.idleNode c) := h.list.ring.next_first
  obtain ⟨d, hd⟩ := Option.isSome_iff_exists.mp (isSome_of_nextOf hnext)
  rw [nextOf, hd] at hnext
  have hdn : d.next = some (.idleNode c) := hnext
  obtain ⟨conn, hconn⟩ := h.list.exists_conn List.mem_cons_self
  refine ⟨d, conn, ?_, hd, hdn, hconn, ?_⟩
  · rw [dlistEmpty, hd]
    refine congrArg some (decide_eq_false ?_)
    rw [hdn]
    simp
  · rw [Srv.activeAt, hconn]
    rfl

theorem idleTurn_nil (h : srv.Table []) (now : Nat) : idleTurn now srv = some (.done srv) := by
  simp [idleTurn, h.idle_nil]

theorem idleTurn_cons {c : ConnId} (h : srv.Table (c :: l)) (now : Nat) :
    idleTurn now srv =
      if overdue now srv.activeAt c then (connDestroy srv c).map .again else some (.done srv) := by
  obtain ⟨d, conn, hempty, hd, hdn, hconn, hactive⟩ := h.idle_cons
  unfold idleTurn
  rw [overdue, hactive]
  simp only [hempty, hd, hdn, hconn, Option.bind_eq_bind, Option.bind_some]
  by_cases hle : now ≤ (conn.lastActiveMs + kIdleTimeoutMs) % 2 ^ 64
  · rw [if_neg (by simp), if_pos hle, if_neg (by simpa using hle)]
    rfl
  · rw [if_neg (by simp), if_neg hle, if_pos (by simpa using hle)]
    cases connDestroy srv c <;> rfl

/-- **The loop closes the connections up to the first that is not overdue.** -/
theorem closeIdle_spec (now : Nat) (active : ConnId → Nat) : ∀ {l : List ConnId} {srv : Srv σ} {fuel : Nat},
    srv.Table l → (∀ c ∈ l, srv.activeAt c = active c) → l.length < fuel →
    ∃ srv', loop (idleTurn now) fuel srv = some srv' ∧
      srv'.Table (l.dropWhile (overdue now active)) ∧
      (∀ c, srv'.conns.read c = if c ∈ l.takeWhile (overdue now active) then none else srv.conns.read c) ∧
      srv'.state = srv.state ∧ srv'.clock = srv.clock := by
  intro l
  induction l with
  | nil =>
    intro srv fuel h _ hfuel
    obtain ⟨fuel, rfl⟩ := Nat.exists_eq_succ_of_ne_zero (Nat.ne_of_gt hfuel)
    exact ⟨srv, loop_done (idleTurn_nil h now), h, fun c => rfl, rfl, rfl⟩
  | cons c l ih =>
    intro srv fuel h hactive hfuel
    obtain ⟨fuel, rfl⟩ := Nat.exists_eq_succ_of_ne_zero (Nat.ne_of_gt (Nat.lt_of_le_of_lt (Nat.zero_le _) hfuel))
    have hturn := idleTurn_cons h now
    have hsame : overdue now srv.activeAt c = overdue now active c := by
      rw [overdue, overdue, hactive c List.mem_cons_self]
    rw [hsame] at hturn
    cases hdue : overdue now active c with
    | false =>
      rw [hdue] at hturn
      rw [List.dropWhile_cons, List.takeWhile_cons, hdue]
      exact ⟨srv, loop_done hturn, h, fun c => rfl, rfl, rfl⟩
    | true =>
      obtain ⟨conn, hconn⟩ := h.list.exists_conn List.mem_cons_self
      obtain ⟨srv₁, hdestroy, h₁, hget, -, hstate, hclock⟩ := connDestroy_spec h hconn
      rw [List.erase_cons_head] at h₁
      rw [hdue, hdestroy] at hturn
      have hne : ∀ d ∈ l, d ≠ c := fun d hd hdc => (List.nodup_cons.mp h.list.nodup).1 (hdc ▸ hd)
      have hactive₁ : ∀ d ∈ l, srv₁.activeAt d = active d := by
        intro d hd
        rw [Srv.activeAt, hget, if_neg (hne d hd)]
        exact hactive d (List.mem_cons_of_mem _ hd)
      obtain ⟨srv', hrun, h', hget', hstate', hclock'⟩ := ih h₁ hactive₁ (Nat.lt_of_succ_lt_succ hfuel)
      rw [List.dropWhile_cons, List.takeWhile_cons, hdue]
      refine ⟨srv', by rw [loop_again hturn]; exact hrun, h', fun d => ?_, hstate'.trans hstate,
        hclock'.trans hclock⟩
      rw [hget', hget]
      by_cases hd : d = c <;> simp [hd]

/-- What goes on a sorted list is what satisfies the test, if the test is passed from later to
earlier. -/
theorem mem_takeWhile_iff {β : Type} {p : β → Bool} : ∀ {l : List β} {b : β},
    l.Pairwise (fun b b' => p b' = true → p b = true) → (b ∈ l.takeWhile p ↔ b ∈ l ∧ p b = true) := by
  intro l
  induction l with
  | nil => simp
  | cons x l ih =>
    intro b hl
    obtain ⟨hx, hl⟩ := List.pairwise_cons.mp hl
    rw [List.takeWhile_cons]
    cases hp : p x with
    | true =>
      rw [if_pos rfl, List.mem_cons, List.mem_cons, ih hl]
      constructor
      · rintro (rfl | ⟨hb, hpb⟩)
        · exact ⟨.inl rfl, hp⟩
        · exact ⟨.inr hb, hpb⟩
      · rintro ⟨rfl | hb, hpb⟩
        · exact .inl rfl
        · exact .inr ⟨hb, hpb⟩
    | false =>
      rw [if_neg (by simp)]
      refine ⟨nofun, ?_⟩
      rintro ⟨hb, hpb⟩
      rcases List.mem_cons.mp hb with rfl | hb
      · rw [hp] at hpb
        cases hpb
      · rw [hx b hb hpb] at hp
        cases hp

theorem Srv.Table.length_le (h : srv.Table l) : l.length ≤ srv.conns.next := by
  have hsub : l ⊆ List.range srv.conns.next := by
    intro c hc
    obtain ⟨conn, hconn⟩ := h.list.exists_conn hc
    exact List.mem_range.mpr (Arena.lt_next hconn)
  have hle := (List.subperm_of_subset h.list.nodup hsub).length_le
  rwa [List.length_range] at hle

/-- **`process_timers`.** When no sum wraps it closes exactly the connections that were idle for
longer than the timeout. -/
theorem srvProcessTimers_spec (hserves : Serves onRequest onTimer P) (h : srv.Table l) (hs : P srv.state)
    {now : Nat} (hnow : srv.clock ≤ now) :
    ∃ srv' l', srvProcessTimers onTimer now srv = some srv' ∧ srv'.Table l' ∧ P srv'.state ∧
      ((∀ c conn, srv.conns.read c = some conn → conn.lastActiveMs + 5000 < 2 ^ 64) →
        ∀ c, srv'.conns.read c =
          (srv.conns.read c).filter fun conn => decide (now ≤ conn.lastActiveMs + 5000)) := by
  have h₀ : Srv.Table { srv with clock := now } l :=
    ⟨h.list, h.slots, h.order.keep (List.Sublist.refl l) (fun _ _ => rfl) hnow⟩
  obtain ⟨srv₁, hloop, h₁, hget, hstate, -⟩ := closeIdle_spec now srv.activeAt h₀ (fun _ _ => rfl)
    (Nat.lt_succ_of_le h.length_le)
  obtain ⟨s', htimer, hs'⟩ := hserves.timer srv₁.state now (hstate ▸ hs)
  refine ⟨{ srv₁ with state := s' }, _, ?_, ⟨h₁.list, h₁.slots, h₁.order⟩, hs', fun hwrap c => ?_⟩
  · simp only [srvProcessTimers, closeIdle, hloop, htimer, Option.bind_eq_bind, Option.bind_some]
    rfl
  have hactive : ∀ d conn, srv.conns.read d = some conn →
      overdue now srv.activeAt d = decide (conn.lastActiveMs + 5000 < now) := by
    intro d conn hconn
    have hsum : (conn.lastActiveMs + kIdleTimeoutMs) % 2 ^ 64 = conn.lastActiveMs + 5000 :=
      Nat.mod_eq_of_lt (hwrap d conn hconn)
    rw [overdue, Srv.activeAt, hconn, Option.map_some, Option.getD_some, hsum]
  -- the list is sorted, so who comes before an overdue connection is overdue
  have hmono : l.Pairwise fun b b' => overdue now srv.activeAt b' = true → overdue now srv.activeAt b = true := by
    refine h.order.sorted.imp_of_mem fun {b b'} hb hb' hle hdue => ?_
    obtain ⟨conn, hconn⟩ := h.list.exists_conn hb
    obtain ⟨conn', hconn'⟩ := h.list.exists_conn hb'
    rw [hactive b' conn' hconn', decide_eq_true_eq] at hdue
    rw [hactive b conn hconn, decide_eq_true_eq]
    rw [Srv.activeAt, Srv.activeAt, hconn, hconn'] at hle
    exact Nat.lt_of_le_of_lt (Nat.add_le_add_right hle 5000) hdue
  show srv₁.conns.read c = _
  rw [hget]
  show (if _ then none else srv.conns.read c) = _
  cases hread : srv.conns.read c with
  | none => simp
  | some conn =>
    have hmem : c ∈ l.takeWhile (overdue now srv.activeAt) ↔ conn.lastActiveMs + 5000 < now := by
      rw [mem_takeWhile_iff hmono, hactive c conn hread, decide_eq_true_eq, h.list.live, hread]
      simp
    by_cases hdue : conn.lastActiveMs + 5000 < now
    · rw [if_pos (hmem.mpr hdue), Option.filter_some, if_neg (by simpa using hdue)]
    · rw [if_neg fun hm => hdue (hmem.mp hm), Option.filter_some, if_pos (by simpa using hdue)]

/-! ## 4. Runs of the loop

The kernel decides what is ready, which calls fail and what the clock says. `Legal` is the
little that it has to respect.
-/

def Legal (onRequest : RequestHandler σ) (onTimer : σ → Nat → Option σ) : Srv σ → List Iteration → Prop
  | _, [] => True
  | srv, it :: its =>
    (∀ r, it = .polled r → r.Possible srv) ∧
      ∀ srv', iterate onRequest onTimer srv it = some srv' → Legal onRequest onTimer srv' its

theorem iterate_spec (hserves : Serves onRequest onTimer P) (h : srv.Table l) (hs : P srv.state)
    {it : Iteration} (hit : ∀ r, it = .polled r → r.Possible srv) :
    ∃ srv' l', iterate onRequest onTimer srv it = some srv' ∧ srv'.Table l' ∧ P srv'.state := by
  cases it with
  | interrupted => exact ⟨srv, l, rfl, h, hs⟩
  | polled r =>
    obtain ⟨srv₁, l₁, hround, h₁, hs₁, hclk⟩ := pollRound_spec hserves h hs (hit r rfl)
    obtain ⟨srv', l', htimers, h', hs', -⟩ := srvProcessTimers_spec hserves h₁ hs₁ hclk
    exact ⟨srv', l', by simp [iterate, hround, htimers], h', hs'⟩

theorem iterates_spec (hserves : Serves onRequest onTimer P) : ∀ {its : List Iteration} {srv : Srv σ}
    {l : List ConnId}, srv.Table l → P srv.state → Legal onRequest onTimer srv its →
    ∃ srv' l', its.foldlM (iterate onRequest onTimer) srv = some srv' ∧ srv'.Table l' ∧ P srv'.state := by
  intro its
  induction its with
  | nil =>
    intro srv l h hs _
    exact ⟨srv, l, rfl, h, hs⟩
  | cons it its ih =>
    intro srv l h hs hlegal
    obtain ⟨srv₁, l₁, hstep, h₁, hs₁⟩ := iterate_spec hserves h hs hlegal.1
    obtain ⟨srv', l', hrun, h'⟩ := ih h₁ hs₁ (hlegal.2 srv₁ hstep)
    refine ⟨srv', l', ?_, h'⟩
    rw [List.foldlM_cons, hstep]
    exact hrun

/-- **The table of connections and the idle list, in every run of the event loop.** No iteration
faults: the lookup of an entry that is ready finds its connection, and the assertion of
`handle_accept` holds. The table is right after every iteration and, in the one that comes next,
before and after `process_timers`; a round with fewer entries that are ready is a round, so it
is right between any two of them too. And `process_timers` closes exactly the connections with
`last_active_ms + 5000 < now`, when that sum does not wrap for any of them. -/
theorem event_loop_table (hserves : Serves onRequest onTimer P) {s : σ} (hs : P s) (its : List Iteration) :
    ∃ srv₀, srvInit s = some srv₀ ∧ (Legal onRequest onTimer srv₀ its →
      ∃ srv l, its.foldlM (iterate onRequest onTimer) srv₀ = some srv ∧ srv.Table l ∧
        ∀ r : Round, r.Possible srv → ∃ srv₁ l₁ srv₂ l₂,
          pollRound onRequest srv r = some srv₁ ∧ srv₁.Table l₁ ∧
          srvProcessTimers onTimer r.now srv₁ = some srv₂ ∧ srv₂.Table l₂ ∧
          ((∀ c conn, srv₁.conns.read c = some conn → conn.lastActiveMs + 5000 < 2 ^ 64) →
            ∀ c, srv₂.conns.read c =
              (srv₁.conns.read c).filter fun conn => decide (r.now ≤ conn.lastActiveMs + 5000))) := by
  obtain ⟨srv₀, hinit, h₀, hstate⟩ := srvInit_spec s
  refine ⟨srv₀, hinit, fun hlegal => ?_⟩
  obtain ⟨srv, l, hrun, h, hs'⟩ := iterates_spec hserves h₀ (hstate ▸ hs) hlegal
  refine ⟨srv, l, hrun, h, fun r hr => ?_⟩
  obtain ⟨srv₁, l₁, hround, h₁, hs₁, hclk⟩ := pollRound_spec hserves h hs' hr
  obtain ⟨srv₂, l₂, htimers, h₂, -, hclosed⟩ := srvProcessTimers_spec hserves h₁ hs₁ hclk
  exact ⟨srv₁, l₁, srv₂, l₂, hround, h₁, htimers, h₂, hclosed⟩

end Round

/-- What `Legal` asks of a run can be computed. -/
def legalCheck (onRequest : RequestHandler σ) (onTimer : σ → Nat → Option σ) : Srv σ → List Iteration → Bool
  | _, [] => true
  | srv, it :: its =>
    (match it with
    | .interrupted => true
    | .polled r =>
      decide ((srv.clock :: r.clocks).Pairwise (· ≤ ·)) && r.clocks.all (· < 2 ^ 64) &&
        match r.accept with
        | some (.accepted connfd _) => !srv.fds.contains connfd
        | _ => true) &&
      (iterate onRequest onTimer srv it).all fun srv' => legalCheck onRequest onTimer srv' its

theorem legal_of_check {onRequest : RequestHandler σ} {onTimer : σ → Nat → Option σ} :
    ∀ {its : List Iteration} {srv : Srv σ}, legalCheck onRequest onTimer srv its = true →
      Legal onRequest onTimer srv its := by
  intro its
  induction its with
  | nil => exact fun _ => trivial
  | cons it its ih =>
    intro srv h
    obtain ⟨hit, hrest⟩ := Bool.and_eq_true_iff.mp h
    refine ⟨?_, fun srv' hrun => ih ?_⟩
    · rintro r rfl
      obtain ⟨hclocks, haccept⟩ := Bool.and_eq_true_iff.mp hit
      obtain ⟨hclock, hrange⟩ := Bool.and_eq_true_iff.mp hclocks
      refine ⟨of_decide_eq_true hclock, ?_, fun connfd clk hacc => ?_⟩
      · simpa using hrange
      · rw [hacc] at haccept
        simpa using haccept
    · rw [hrun] at hrest
      exact hrest

def muteRequest : RequestHandler Unit := fun s _ out => some (s, out)

def muteTimer : Unit → Nat → Option Unit := fun s _ => some s

theorem mute_serves : Serves muteRequest muteTimer fun _ => True where
  request := fun s _ out _ => ⟨s, [], by rw [List.append_nil]; rfl, trivial⟩
  timer := fun s _ _ => ⟨s, rfl, trivial⟩

/-- A connection is accepted; then another one, and the first one is ready. -/
def twoConnections : List Iteration :=
  [.polled { accept := some (.accepted 3 10), ready := [], now := 20 },
    .polled
      { accept := some (.accepted 5 25)
        ready := [some (30, ⟨true, false, false, .again, .again, .again⟩)]
        now := 40 }]

theorem twoConnections_legal {srv₀ : Srv Unit} (hinit : srvInit () = some srv₀) :
    Legal muteRequest muteTimer srv₀ twoConnections := by
  cases hinit
  exact legal_of_check (by decide +kernel)

theorem event_loop_table_two :
    ∃ srv₀, srvInit () = some srv₀ ∧ Legal muteRequest muteTimer srv₀ twoConnections ∧
      ∃ srv l, twoConnections.foldlM (iterate muteRequest muteTimer) srv₀ = some srv ∧ srv.Table l := by
  obtain ⟨srv₀, hinit, hrun⟩ := event_loop_table mute_serves (s := ()) trivial twoConnections
  have hlegal := twoConnections_legal hinit
  obtain ⟨srv, l, hfold, htable, -⟩ := hrun hlegal
  exact ⟨srv₀, hinit, hlegal, srv, l, hfold, htable⟩

/-- The clock stands at the end of `uint64_t`, and a connection is accepted. -/
def lastMillisecond : Round := { accept := some (.accepted 3 (2 ^ 64 - 1)), ready := [], now := 2 ^ 64 - 1 }

/-- **A sum that wraps**: the connection that was accepted in this millisecond is closed as
idle. -/
theorem idle_deadline_wraps :
    ∃ srv₀ srv₁ srv₂ conn, srvInit () = some srv₀ ∧ lastMillisecond.Possible srv₀ ∧
      pollRound muteRequest srv₀ lastMillisecond = some srv₁ ∧ srv₁.conns.read 0 = some conn ∧
      ¬conn.lastActiveMs + 5000 < lastMillisecond.now ∧
      srvProcessTimers muteTimer lastMillisecond.now srv₁ = some srv₂ ∧ srv₂.conns.read 0 = none := by
  refine ⟨_, _, _, _, rfl, ⟨by decide, by decide, fun connfd clk _ => List.not_mem_nil⟩, rfl, rfl, by decide,
    rfl, rfl⟩

end ApexDB
