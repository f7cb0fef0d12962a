import ApexDB.Proof.Interest
import ApexDB.Proof.OneOrder
import ApexDB.Proof.TcpRpc

/-!
# A client that does not read cannot fill the server's memory

`handle_read` turns reading off as soon as there is something to write, and `handle_write` turns
it on again only when all of it is written. So what waits in `outgoing` are **responses to the
requests of one read**, and the buffers of a connection are bounded whatever its client does.

How many requests there can be in one read follows from what the read before it has left: no
whole request (`Conn.Settled`). At most the first one began before this read, so all others lie
in its 65536 bytes, and each takes eight. That is 8192 responses (`requestLoop_backlog`).

The rest is about the round. `poll` reports `POLLIN` where it was asked for it, but it was asked
before `accept` and before other connections were served (`heeds`); that the flag is still set
when the entry's turn comes is the part of the invariant that speaks of entries to come.
-/

set_option autoImplicit false

namespace ApexDB

open Lib

variable {σ : Type}

/-! ## 1. One read

What is left of the input after a read waits for more, so it is a part of one request. The bound
is by the bytes of the last read: each answer after the first has used up eight of them, four
for the length of the frame and four for the number of strings.
-/

/-- `sizeof(buf)` in `handle_read`. -/
def kReadSize : Nat := 64 * 1024

/-- The bytes that wait are those of so many responses of the largest size. -/
def Conn.Backlog (conn : Conn) (n : Nat) : Prop := conn.outgoing.length ≤ n * (4 + kMaxMsg)

theorem length_encodeRequest {cmd : List Bytes} (hne : encodeRequest cmd ≠ []) : 8 ≤ (encodeRequest cmd).length := by
  rw [encodeRequest_eq] at hne ⊢
  split at hne
  · rename_i hok
    rw [if_pos hok, List.length_append, length_le, length_requestBody]
    omega
  · exact absurd rfl hne

/-- What waits for more is less than a frame. -/
theorem length_of_more {x : Bytes} (h : cutRequest x = .more) : x.length < 4 + kMaxMsg := by
  unfold cutRequest at h
  split at h
  · omega
  split at h
  · cases h
  split at h
  · omega
  split at h
  · cases h
  · cases h

/-- **The first request ends in what was read last**, since what was there before waits for
more. -/
theorem first_ends_in_chunk {a chunk rest : Bytes} {cmd : List Bytes} (hmore : cutRequest a = .more)
    (hcut : cutRequest (a ++ chunk) = .item cmd rest) : rest.length < chunk.length := by
  have hsplit := cutRequest_item hcut
  by_contra hlong
  -- otherwise the request would have been whole before
  have hle : (encodeRequest cmd).length ≤ a.length := by
    have := congrArg List.length hsplit
    rw [List.length_append, List.length_append] at this
    omega
  have hfront : encodeRequest cmd <+: a :=
    List.prefix_of_prefix_length_le ⟨rest, hsplit.symm⟩ ⟨chunk, rfl⟩ hle
  obtain ⟨left, rfl⟩ := hfront
  have hne : encodeRequest cmd ≠ [] := by
    intro hnil
    have := requestCutter.shrinks hcut
    rw [hsplit, hnil] at this
    exact absurd this (Nat.lt_irrefl _)
  have hwhole := requestCutter.item_append (cutRequest_encode hne) left
  rw [show requestCutter.cut (encodeRequest cmd ++ left) = _ from hmore] at hwhole
  cases hwhole

section Serve

variable {onRequest : RequestHandler σ} {onTimer : σ → Nat → Option σ} {P : σ → Prop}

theorem requestTurn_again (hserves : Serves onRequest onTimer P) {s s' : σ} (hs : P s) {conn conn' : Conn}
    (hturn : requestTurn onRequest (s, conn) = some (.again (s', conn'))) :
    ∃ cmd body, cutRequest conn.incoming = .item cmd conn'.incoming ∧
      conn'.outgoing = conn.outgoing ++ frameOf body ∧ P s' := by
  have htry := tryOneRequest_eq onRequest s conn
  cases hcut : cutRequest conn.incoming with
  | more =>
    rw [hcut] at htry
    simp only [requestTurn, htry] at hturn
    cases hturn
  | bad =>
    rw [hcut] at htry
    simp only [requestTurn, htry] at hturn
    cases hturn
  | item cmd rest =>
    obtain ⟨t, body, hrun, ht⟩ := hserves.request s cmd (conn.outgoing ++ le 4 0) hs
    rw [hcut] at htry
    dsimp only at htry
    rw [respond_spec conn.outgoing hrun] at htry
    simp only [requestTurn, htry] at hturn
    cases hturn
    exact ⟨cmd, body, rfl, rfl, ht⟩

/-- **The requests of one read.** After the first, eight bytes of the read are gone with every
answer. -/
theorem requestLoop_backlog (hserves : Serves onRequest onTimer P) {s s' : σ} (hs : P s) {a chunk : Bytes}
    (hmore : cutRequest a = .more) (hchunk : chunk.length ≤ kReadSize) {conn conn' : Conn} {fuel : Nat}
    (hrun : loop (requestTurn onRequest) fuel (s, conn) = some (s', conn')) (hin : conn.incoming = a ++ chunk)
    (hout : conn.outgoing = []) : conn'.Backlog (kReadSize / 8) := by
  refine loop_inv
    (fun b : σ × Conn => P b.1 ∧ ∃ n, b.2.Backlog n ∧
      (n = 0 ∧ b.2.incoming = a ++ chunk ∨ 0 < n ∧ b.2.incoming.length + 8 * (n - 1) < kReadSize))
    (fun b : σ × Conn => b.2.Backlog (kReadSize / 8)) ?_ ?_
    (s := (s, conn)) ⟨hs, 0, by simp [Conn.Backlog, hout], .inl ⟨rfl, hin⟩⟩ hrun
  · rintro ⟨t, c⟩ ⟨t', c'⟩ ⟨ht, n, hn, hleft⟩ hturn
    obtain ⟨cmd, body, hcut, hframe, ht'⟩ := requestTurn_again hserves ht hturn
    have hsize : (frameOf body).length ≤ 4 + kMaxMsg := by
      rw [length_frameOf]
      exact Nat.add_le_add_left (length_bodyOf body) 4
    refine ⟨ht', n + 1, ?_, .inr ⟨Nat.succ_pos n, ?_⟩⟩
    · unfold Conn.Backlog at hn ⊢
      dsimp only at hn ⊢
      rw [hframe, List.length_append, Nat.succ_mul]
      omega
    · rcases hleft with ⟨rfl, hfirst⟩ | ⟨hpos, hlen⟩
      · dsimp only at hfirst hcut ⊢
        rw [hfirst] at hcut
        have := first_ends_in_chunk hmore hcut
        omega
      · dsimp only at hcut hlen ⊢
        have hsplit := congrArg List.length (cutRequest_item hcut)
        have hne : encodeRequest cmd ≠ [] := by
          intro hnil
          have := requestCutter.shrinks hcut
          rw [hnil, List.nil_append] at hsplit
          omega
        have := length_encodeRequest hne
        rw [List.length_append] at hsplit
        omega
  · rintro ⟨t, c⟩ ⟨t', c'⟩ ⟨ht, n, hn, hleft⟩ hturn
    have hcount : n ≤ kReadSize / 8 := by
      have hsize : kReadSize = 8 * 8192 := rfl
      omega
    have hsame : c'.outgoing = c.outgoing := by
      rcases requestTurn_cases hserves ht c with ⟨-, heq⟩ | heq | ⟨t₁, body, rest, heq, -⟩
      all_goals
        rw [heq] at hturn
        cases hturn
      · rfl
      · rfl
    unfold Conn.Backlog at hn ⊢
    dsimp only at hn ⊢
    rw [hsame]
    exact hn.trans (Nat.mul_le_mul_right _ hcount)

theorem handleWrite_backlog {w : WriteResult} {conn conn' : Conn} {sent : Bytes} {n : Nat}
    (hrun : handleWrite w conn = some (conn', sent)) (h : conn.Backlog n) : conn'.Backlog n := by
  have hne : conn.outgoing.isEmpty = false := by
    by_contra hempty
    unfold handleWrite at hrun
    rw [if_pos (by simpa using hempty)] at hrun
    cases hrun
  obtain ⟨conn₁, sent₁, hrun₁, hwrote, -⟩ := handleWrite_spec w conn hne
  rw [hrun] at hrun₁
  cases hrun₁
  have hlen := congrArg List.length hwrote.outgoing
  unfold Conn.Backlog at h ⊢
  rw [List.length_append] at hlen
  omega

/-- **A round keeps the backlog**, if the connection is read from only when it wants to be. -/
theorem serveConn_backlog (hserves : Serves onRequest onTimer P) {s s' : σ} (hs : P s) {ready : Ready}
    {conn conn' : Conn} {sent : Bytes} {destroyed : Bool} (hsettled : conn.Settled)
    (h : conn.Backlog (kReadSize / 8)) (hasked : ready.pollin = true → conn.wantRead = true)
    (hchunk : ready.chunk.length ≤ kReadSize)
    (hrun : serveConn onRequest ready s conn = some (s', conn', sent, destroyed)) :
    conn'.Backlog (kReadSize / 8) := by
  obtain ⟨⟨t, c, sent₁⟩, hread, hrest⟩ := Option.bind_eq_some_iff.mp hrun
  obtain ⟨⟨c', sent₂⟩, hwrite, hlast⟩ := Option.bind_eq_some_iff.mp hrest
  cases hlast
  have hc : c.Backlog (kReadSize / 8) := by
    split at hread
    · rename_i hpollin
      have hempty : conn.outgoing = [] := by
        rw [← List.isEmpty_iff, ← hsettled.read]
        exact hasked hpollin
      rw [Ready.chunk, if_pos hpollin] at hchunk
      cases hr : ready.read with
      | again =>
        rw [hr] at hread
        cases hread
        exact h
      | error =>
        rw [hr] at hread
        cases hread
        exact h
      | eof =>
        rw [hr] at hread
        cases hread
        exact h
      | data chunk =>
        rw [hr] at hread hchunk
        obtain ⟨⟨t₁, c₁⟩, hloop, hlast⟩ := Option.bind_eq_some_iff.mp hread
        have hback : c₁.Backlog (kReadSize / 8) :=
          requestLoop_backlog hserves hs hsettled.drained hchunk hloop rfl hempty
        dsimp only at hlast
        split at hlast
        · cases hlast
          exact hback
        · obtain ⟨⟨c₂, sent₃⟩, hw, hlast⟩ := Option.bind_eq_some_iff.mp hlast
          cases hlast
          exact handleWrite_backlog hw hback
    · cases hread
      exact h
  split at hwrite
  · exact handleWrite_backlog hwrite hc
  · cases hwrite
    exact hc

end Serve

/-! ## 2. The round

A connection that is written to and drained wants to read again, in the same turn; so the flag
`want_read` and the backlog change together, and only at the turn of the entry itself.
-/

/-- `poll` reports `POLLIN` only where it was asked for it, and `read` returns at most what fits
its buffer. -/
def heeds (srv : Srv σ) : Iteration → Bool
  | .interrupted => true
  | .polled r => (pollArgs srv).all fun args => (args.zip r.ready).all fun (pfd, ev) =>
      ev.all fun (_, ready) => (!ready.pollin || pfd.pollin) && decide (ready.chunk.length ≤ kReadSize)

def heeded (onRequest : RequestHandler σ) (onTimer : σ → Nat → Option σ) : Srv σ → List Iteration → Bool
  | _, [] => true
  | srv, it :: its =>
    heeds srv it && (iterate onRequest onTimer srv it).all fun srv' => heeded onRequest onTimer srv' its

def Srv.Bounded (srv : Srv σ) : Prop := ∀ c conn, srv.conns.read c = some conn → conn.Backlog (kReadSize / 8)

/-- An entry to come asks for what its connection wants. -/
def Srv.Wants (srv : Srv σ) (pfd : PollFd) : Prop :=
  ∀ c conn, srv.fd2conn[pfd.fd]? = some (some c) → srv.conns.read c = some conn →
    pfd.pollin = true → conn.wantRead = true

section Round

variable {onRequest : RequestHandler σ} {onTimer : σ → Nat → Option σ} {P : σ → Prop} {srv srv' : Srv σ}
  {l : List ConnId}

theorem Srv.Bounded.serveFd (hserves : Serves onRequest onTimer P) (h : srv.Table l) (hsettled : srv.Settled)
    (hs : P srv.state) (hb : srv.Bounded) {pfd : PollFd} (hwants : srv.Wants pfd) {clk : Nat} {ready : Ready}
    (hasked : ready.pollin = true → pfd.pollin = true) (hchunk : ready.chunk.length ≤ kReadSize)
    (hrun : serveFd onRequest clk ready srv pfd.fd = some srv') :
    srv'.Bounded ∧ ∀ p : PollFd, p.fd ≠ pfd.fd → srv'.fd2conn[p.fd]? = srv.fd2conn[p.fd]? →
      srv.Wants p → srv'.Wants p := by
  obtain ⟨c, conn, conn', sent, destroyed, hslot, hread, hserve, -, hget⟩ := serveFd_cases hrun
  have hback : conn'.Backlog (kReadSize / 8) := serveConn_backlog hserves hs (hsettled c conn hread).2
    (hb c conn hread) (fun hin => hwants c conn hslot hread (hasked hin)) hchunk hserve
  refine ⟨fun d conn₁ hread₁ => ?_, fun p hne hkeep hp d conn₁ hslot₁ hread₁ => ?_⟩
  · rw [hget] at hread₁
    split at hread₁
    · split at hread₁
      · cases hread₁
      · cases hread₁
        exact hback
    · exact hb d conn₁ hread₁
  · -- a connection of another descriptor is another connection
    rw [hkeep] at hslot₁
    have hd : d ≠ c := by
      rintro rfl
      obtain ⟨conn₂, hread₂, hfd₂⟩ := (h.slots.table _ _).mp hslot
      obtain ⟨conn₃, hread₃, hfd₃⟩ := (h.slots.table _ _).mp hslot₁
      rw [hread₂] at hread₃
      cases hread₃
      exact hne (hfd₃.symm.trans hfd₂)
    rw [hget, if_neg hd] at hread₁
    exact hp d conn₁ hslot₁ hread₁

/-- **The loop over `poll_args`.** The induction is on the entries still to come. -/
theorem Srv.Bounded.serveAll (hserves : Serves onRequest onTimer P) :
    ∀ {args : List PollFd} {ready : List (Option (Nat × Ready))} {srv srv' : Srv σ} {l : List ConnId},
    srv.Table l → srv.Settled → P srv.state → srv.Bounded → (args.map PollFd.fd).Nodup →
    (∀ pfd ∈ args, ∃ c, srv.fd2conn[pfd.fd]? = some (some c)) → (∀ pfd ∈ args, srv.Wants pfd) →
    (srv.clock :: readyClocks ready).Pairwise (· ≤ ·) →
    (∀ pfd clk r, (pfd, some (clk, r)) ∈ args.zip ready →
      (r.pollin = true → pfd.pollin = true) ∧ r.chunk.length ≤ kReadSize) →
    serveAll onRequest (args.zip ready) srv = some srv' → srv'.Bounded := by
  intro args
  induction args with
  | nil =>
    intro ready srv srv' l _ _ _ hb _ _ _ _ _ hrun
    cases hrun
    exact hb
  | cons pfd args ih =>
    intro ready srv srv' l h hsettled hs hb hnodup hall hwants hclock hheeds hrun
    obtain ⟨hfirst, hnodup⟩ := List.nodup_cons.mp hnodup
    cases ready with
    | nil =>
      cases hrun
      exact hb
    | cons ev ready =>
      rw [List.zip_cons_cons, ApexDB.serveAll, List.foldlM_cons] at hrun
      obtain ⟨srv₁, hone, hrest⟩ := Option.bind_eq_some_iff.mp hrun
      have hheeds' : ∀ p clk r, (p, some (clk, r)) ∈ args.zip ready →
          (r.pollin = true → p.pollin = true) ∧ r.chunk.length ≤ kReadSize :=
        fun p clk r hmem => hheeds p clk r (List.mem_cons_of_mem _ hmem)
      cases ev with
      | none =>
        cases hone
        have hclock' : (srv.clock :: readyClocks ready).Pairwise (· ≤ ·) := hclock
        exact ih h hsettled hs hb hnodup (fun p hp => hall p (List.mem_cons_of_mem _ hp))
          (fun p hp => hwants p (List.mem_cons_of_mem _ hp)) hclock' hheeds' hrest
      | some ev =>
        obtain ⟨clk, r⟩ := ev
        obtain ⟨hle, hclocks⟩ := List.pairwise_cons.mp hclock
        obtain ⟨c, hc⟩ := hall pfd List.mem_cons_self
        obtain ⟨hasked, hchunk⟩ := hheeds pfd clk r List.mem_cons_self
        obtain ⟨srv₂, l₂, hserve, h₂, hs₂, hclk₂, hkeep⟩ :=
          serveFd_spec hserves h hs hc (hle clk List.mem_cons_self) r
        rw [show ApexDB.serveFd onRequest clk r srv pfd.fd = some srv₁ from hone] at hserve
        cases hserve
        obtain ⟨hb₁, hothers⟩ := hb.serveFd hserves h hsettled hs (hwants pfd List.mem_cons_self) hasked hchunk hone
        have hne : ∀ p ∈ args, p.fd ≠ pfd.fd := fun p hp heq => hfirst (heq ▸ List.mem_map_of_mem hp)
        refine ih h₂ (hsettled.serveFd hserves hs hone).1 hs₂ hb₁ hnodup (fun p hp => ?_) (fun p hp => ?_)
          (by rw [hclk₂]; exact hclocks) hheeds' hrest
        · rw [hkeep p.fd (hne p hp)]
          exact hall p (List.mem_cons_of_mem _ hp)
        · exact hothers p (hne p hp) (hkeep p.fd (hne p hp)) (hwants p (List.mem_cons_of_mem _ hp))

theorem heeds_entry {r : Round} {args : List PollFd} (hargs : pollArgs srv = some args)
    (h : heeds srv (.polled r) = true) {pfd : PollFd} {clk : Nat} {ready : Ready}
    (hmem : (pfd, some (clk, ready)) ∈ args.zip r.ready) :
    (ready.pollin = true → pfd.pollin = true) ∧ ready.chunk.length ≤ kReadSize := by
  rw [heeds, hargs] at h
  have hentry := List.all_eq_true.mp h _ hmem
  obtain ⟨hasked, hchunk⟩ := Bool.and_eq_true_iff.mp hentry
  refine ⟨fun hin => ?_, of_decide_eq_true hchunk⟩
  rw [hin] at hasked
  exact hasked

theorem Srv.Bounded.iterate (hserves : Serves onRequest onTimer P) (h : srv.Table l) (hsettled : srv.Settled)
    (hs : P srv.state) (hb : srv.Bounded) {it : Iteration} (hpossible : ∀ r, it = .polled r → r.Possible srv)
    (hheeds : heeds srv it = true) (hrun : iterate onRequest onTimer srv it = some srv') : srv'.Bounded := by
  cases it with
  | interrupted =>
    cases hrun
    exact hb
  | polled r =>
    obtain ⟨srv₂, hround, htimers⟩ := Option.bind_eq_some_iff.mp hrun
    obtain ⟨args, hargs, hround⟩ := Option.bind_eq_some_iff.mp hround
    obtain ⟨srv₁, haccept, hserve⟩ := Option.bind_eq_some_iff.mp hround
    obtain ⟨srv₃, hidle, htimers⟩ := Option.bind_eq_some_iff.mp htimers
    obtain ⟨s', -, hlast⟩ := Option.bind_eq_some_iff.mp htimers
    cases hlast
    obtain ⟨args', hargs', hnodup, hall⟩ := pollArgs_spec h
    rw [hargs] at hargs'
    cases hargs'
    obtain ⟨srv₁', l₁, haccept', h₁, hs₁, hslots, hclock⟩ := acceptIfReady_spec h hs (hpossible r rfl)
    rw [haccept] at haccept'
    cases haccept'
    obtain ⟨hreads, -, -⟩ := acceptIfReady_reads haccept
    -- what `accept` adds has nothing to say yet
    have hsettled₁ : srv₁.Settled := by
      intro c conn hread
      rcases hreads c with hold | ⟨-, fd, clk, hnew⟩
      · exact hsettled c conn (hold.symm.trans hread)
      · rw [hread] at hnew
        cases hnew
        exact ⟨rfl, Conn.settled_new⟩
    have hb₁ : srv₁.Bounded := by
      intro c conn hread
      rcases hreads c with hold | ⟨-, fd, clk, hnew⟩
      · exact hb c conn (hold.symm.trans hread)
      · rw [hread] at hnew
        cases hnew
        exact Nat.zero_le _
    have hwants : ∀ pfd ∈ args, srv₁.Wants pfd := by
      intro pfd hpfd c conn hslot hread hin
      obtain ⟨c₀, conn₀, hslot₀, hread₀, rfl⟩ := hall pfd hpfd
      rw [hslots _ c₀ hslot₀] at hslot
      cases hslot
      rcases hreads c with hold | ⟨hnew, -⟩
      · rw [hread, hread₀] at hold
        cases hold
        exact hin
      · exact absurd (Arena.lt_next hread₀) (by rw [hnew]; exact Nat.lt_irrefl _)
    rw [← List.cons_append, List.pairwise_append] at hclock
    have hb₂ : srv₂.Bounded := hb₁.serveAll hserves h₁ hsettled₁ hs₁ hnodup
      (fun pfd hpfd => by
        obtain ⟨c, -, hslot, -⟩ := hall pfd hpfd
        exact ⟨c, hslots pfd.fd c hslot⟩)
      hwants hclock.1 (fun pfd clk ready => heeds_entry hargs hheeds) hserve
    intro c conn hread
    exact hb₂ c conn ((closeIdle_reads hidle).2.2 c conn hread)

theorem Srv.Bounded.iterates (hserves : Serves onRequest onTimer P) :
    ∀ {its : List Iteration} {srv srv' : Srv σ} {l : List ConnId}, srv.Table l → srv.Settled → P srv.state →
      srv.Bounded → Legal onRequest onTimer srv its → heeded onRequest onTimer srv its = true →
      its.foldlM (ApexDB.iterate onRequest onTimer) srv = some srv' → srv'.Bounded := by
  intro its
  induction its with
  | nil =>
    intro srv srv' l _ _ _ hb _ _ hrun
    cases hrun
    exact hb
  | cons it its ih =>
    intro srv srv' l h hsettled hs hb hlegal hheeded hrun
    rw [List.foldlM_cons] at hrun
    obtain ⟨srv₁, hone, hrest⟩ := Option.bind_eq_some_iff.mp hrun
    obtain ⟨hheeds, hheeded⟩ := Bool.and_eq_true_iff.mp hheeded
    rw [hone] at hheeded
    obtain ⟨srv₁', l₁, hone', h₁, -⟩ := iterate_spec hserves h hs hlegal.1
    rw [hone] at hone'
    cases hone'
    obtain ⟨hsettled₁, hs₁⟩ := hsettled.iterate hserves hs hone
    exact ih h₁ hsettled₁ hs₁ (hb.iterate hserves h hsettled hs hlegal.1 hheeds hone) (hlegal.2 srv₁ hone)
      hheeded hrest

/-- **The buffers of a connection are bounded, in every run of the event loop** in which `poll`
reports `POLLIN` only where it was asked for it and `read` keeps to its buffer. Between two
iterations less than one frame waits in `incoming`, and no more than 8192 responses wait in
`outgoing`, whatever the clients send, pipeline or leave unread. -/
theorem backlog_bounded (hserves : Serves onRequest onTimer P) {s : σ} (hs : P s) (its : List Iteration) :
    ∃ srv₀, srvInit s = some srv₀ ∧ (Legal onRequest onTimer srv₀ its →
      heeded onRequest onTimer srv₀ its = true →
      ∃ srv, its.foldlM (iterate onRequest onTimer) srv₀ = some srv ∧
        ∀ c conn, srv.conns.read c = some conn →
          conn.incoming.length < 4 + kMaxMsg ∧ conn.outgoing.length ≤ 8192 * (4 + kMaxMsg)) := by
  obtain ⟨srv₀, hinit, h₀, hstate⟩ := srvInit_spec s
  refine ⟨srv₀, hinit, fun hlegal hheeded => ?_⟩
  obtain ⟨srv, l, hrun, -⟩ := iterates_spec hserves h₀ (hstate ▸ hs) hlegal
  have hempty : ∀ c conn, srv₀.conns.read c ≠ some conn := by
    cases hinit
    intro c conn hread
    cases hread
  have hsettled₀ : srv₀.Settled := fun c conn hread => absurd hread (hempty c conn)
  have hsettled : srv.Settled := hsettled₀.iterates hserves (hstate ▸ hs) hrun
  have hb₀ : srv₀.Bounded := fun c conn hread => absurd hread (hempty c conn)
  have hb : srv.Bounded := hb₀.iterates hserves h₀ hsettled₀ (hstate ▸ hs) hlegal hheeded hrun
  refine ⟨srv, hrun, fun c conn hread => ⟨?_, hb c conn hread⟩⟩
  exact length_of_more (hsettled c conn hread).2.drained

end Round

theorem backlog_bounded_two : ∃ srv₀, srvInit 0 = some srv₀ ∧
    Legal tallyRequest tallyTimer srv₀ twoClients ∧ heeded tallyRequest tallyTimer srv₀ twoClients = true ∧
    ∃ srv, twoClients.foldlM (iterate tallyRequest tallyTimer) srv₀ = some srv ∧
      ((srv.conns.read 1).map fun conn => (conn.incoming, conn.outgoing)) = some ([], [0, 0, 1, 1, 0, 0, 0, 2]) ∧
      ∀ c conn, srv.conns.read c = some conn → conn.outgoing.length ≤ 8192 * (4 + kMaxMsg) := by
  obtain ⟨srv₀, hinit, hbound⟩ := backlog_bounded tally_replies.serves (s := 0) trivial twoClients
  have hlegal : Legal tallyRequest tallyTimer srv₀ twoClients := by
    cases hinit
    exact legal_of_check (by decide +kernel)
  have hheeded : heeded tallyRequest tallyTimer srv₀ twoClients = true := by
    cases hinit
    decide +kernel
  obtain ⟨srv, hrun, hall⟩ := hbound hlegal hheeded
  refine ⟨srv₀, hinit, hlegal, hheeded, srv, hrun, ?_, fun c conn hread => (hall c conn hread).2⟩
  cases hinit
  have hread := congrArg (Option.map fun srv : Srv Nat =>
    (srv.conns.read 1).map fun conn => (conn.incoming, conn.outgoing)) hrun
  exact Option.some.inj (hread.symm.trans (by decide +kernel))

end ApexDB
