import ApexDB.Proof.Disposal
import ApexDB.Proof.Interest
import ApexDB.Proof.Service

/-!
# Nothing is left when the server stops

A signal ends the loop of `run_tcp_server` after any iteration. What is open then is closed by
the loop after it, by way of `fd2conn`; so **every descriptor that `accept` has returned is
closed exactly once**, in the course of the run or at its end, and every `Conn` is deleted
exactly once. The descriptors that were closed are read off the connections that the arena has
freed.

Then `main` returns, and the destructor of the store disposes of the rest. The state of the
store at that moment is one that its runs can reach, so `Proof/Disposal.lean` applies to it.
-/

set_option autoImplicit false

namespace ApexDB

open Lib

variable {σ : Type}

/-! ## 1. Descriptors

A number may be accepted again after it was closed, so the lists are compared as multisets: what
was accepted is what was closed together with what is open.
-/

/-- The descriptors that were closed, in that order. -/
def Srv.closed (srv : Srv σ) : List Nat := srv.conns.freed.map fun x => x.2.fd

def AcceptResult.fd? : AcceptResult → Option Nat
  | .accepted connfd _ => some connfd
  | .failed => none

def Iteration.accepted? : Iteration → Option Nat
  | .polled round => round.accept.bind AcceptResult.fd?
  | .interrupted => none

/-- **What holds of the descriptors**: those that were accepted are closed, or open and each of
one connection. -/
structure Srv.Owns (srv : Srv σ) (accepted : List Nat) : Prop where
  opened : ∀ c conn, srv.conns.read c = some conn → conn.fd ∈ srv.fds
  inj : ∀ c d conn conn', srv.conns.read c = some conn → srv.conns.read d = some conn' → conn.fd = conn'.fd → c = d
  count : (srv.closed ++ srv.fds).Perm accepted

section Owns

variable {srv srv' : Srv σ} {accepted : List Nat} {onRequest : RequestHandler σ} {onTimer : σ → Nat → Option σ}

theorem connDestroy_closes {c : ConnId} (hrun : connDestroy srv c = some srv') :
    ∃ conn, srv.conns.read c = some conn ∧ srv'.closed = srv.closed ++ [conn.fd] ∧
      srv'.fds = srv.fds.erase conn.fd ∧ srv'.fd2conn = srv.fd2conn.set conn.fd none ∧
      ∀ d, srv'.conns.read d = if d = c then none else srv.conns.read d := by
  obtain ⟨hreads, -⟩ := connDestroy_reads hrun
  obtain ⟨conn, hread, hrest⟩ := Option.bind_eq_some_iff.mp hrun
  split at hrest
  · cases hrest
  obtain ⟨links, -, hrest⟩ := Option.bind_eq_some_iff.mp hrest
  obtain ⟨conns, hfree, hlast⟩ := Option.bind_eq_some_iff.mp hrest
  cases hlast
  refine ⟨conn, hread, ?_, rfl, rfl, hreads⟩
  rw [Srv.closed, Arena.freed_free hread hfree, List.map_append]
  rfl

/-- A descriptor goes from those that are open to those that are closed. -/
theorem Srv.Owns.destroy (h : srv.Owns accepted) {c : ConnId} (hrun : connDestroy srv c = some srv') :
    srv'.Owns accepted := by
  obtain ⟨conn, hread, hclosed, hfds, -, hreads⟩ := connDestroy_closes hrun
  have hsame : ∀ d conn', srv'.conns.read d = some conn' → d ≠ c ∧ srv.conns.read d = some conn' := by
    intro d conn' hd
    rw [hreads] at hd
    split at hd
    · cases hd
    · exact ⟨‹_›, hd⟩
  refine ⟨fun d conn' hd => ?_, fun d e conn' conn'' hd he => ?_, ?_⟩
  · obtain ⟨hne, hd⟩ := hsame d conn' hd
    rw [hfds]
    refine (List.mem_erase_of_ne fun hfd => ?_).mpr (h.opened d conn' hd)
    exact hne (h.inj d c conn' conn hd hread hfd)
  · exact h.inj d e conn' conn'' (hsame d conn' hd).2 (hsame e conn'' he).2
  · rw [hclosed, hfds, List.append_assoc]
    exact ((List.perm_cons_erase (h.opened c conn hread)).symm.append_left _).trans h.count

theorem Srv.Owns.write (h : srv.Owns accepted) {c : ConnId} {conn conn' : LoopConn} {conns : Arena LoopConn}
    (hread : srv.conns.read c = some conn) (hwrite : srv.conns.write c conn' = some conns)
    (hfd : conn'.fd = conn.fd) (s : σ) (links : DListMem DAddr) (clk : Nat) :
    Srv.Owns { srv with state := s, conns := conns, links := links, clock := clk } accepted := by
  obtain ⟨conns', hwrite', -, hget⟩ := Arena.write_spec hread conn'
  obtain rfl : conns' = conns := Option.some.inj (hwrite'.symm.trans hwrite)
  -- each connection is one that was there, with the same descriptor
  have hsame : ∀ d x, conns'.read d = some x → ∃ x', srv.conns.read d = some x' ∧ x'.fd = x.fd := by
    intro d x hd
    rw [hget] at hd
    split at hd
    · cases hd
      exact ⟨conn, ‹d = c› ▸ hread, hfd.symm⟩
    · exact ⟨x, hd, rfl⟩
  refine ⟨fun d x hd => ?_, fun d e x y hd he hxy => ?_, ?_⟩
  · obtain ⟨x', hd', hx⟩ := hsame d x hd
    exact hx ▸ h.opened d x' hd'
  · obtain ⟨x', hd', hx⟩ := hsame d x hd
    obtain ⟨y', he', hy⟩ := hsame e y he
    exact h.inj d e x' y' hd' he' (hx.trans (hxy.trans hy.symm))
  · have hfreed := Arena.freed_write hwrite
    unfold Srv.closed
    dsimp only
    rw [hfreed]
    exact h.count

theorem Srv.Owns.serveFd (h : srv.Owns accepted) {clk fd : Nat} {ready : Ready}
    (hrun : serveFd onRequest clk ready srv fd = some srv') : srv'.Owns accepted := by
  obtain ⟨slot, -, hrest⟩ := Option.bind_eq_some_iff.mp hrun
  obtain ⟨c, -, hrest⟩ := Option.bind_eq_some_iff.mp hrest
  obtain ⟨conn, hread, hrest⟩ := Option.bind_eq_some_iff.mp hrest
  obtain ⟨links, -, hrest⟩ := Option.bind_eq_some_iff.mp hrest
  obtain ⟨links', -, hrest⟩ := Option.bind_eq_some_iff.mp hrest
  obtain ⟨⟨s', conn', sent, destroyed⟩, -, hrest⟩ := Option.bind_eq_some_iff.mp hrest
  obtain ⟨conns, hwrite, hrest⟩ := Option.bind_eq_some_iff.mp hrest
  have hserved := h.write hread hwrite rfl s' links' clk
  cases destroyed with
  | true => exact hserved.destroy hrest
  | false =>
    cases hrest
    exact hserved

theorem Srv.Owns.serveAll : ∀ {entries : List (PollFd × Option (Nat × Ready))} {srv srv' : Srv σ},
    srv.Owns accepted → serveAll onRequest entries srv = some srv' → srv'.Owns accepted := by
  intro entries
  induction entries with
  | nil =>
    intro srv srv' h hrun
    cases hrun
    exact h
  | cons entry entries ih =>
    intro srv srv' h hrun
    obtain ⟨pfd, ev⟩ := entry
    obtain ⟨srv₁, hone, hrest⟩ := Option.bind_eq_some_iff.mp hrun
    cases ev with
    | none =>
      cases hone
      exact ih h hrest
    | some ev => exact ih (h.serveFd hone) hrest

/-- What `accept` returns is not open, so it is the descriptor of the new connection only. -/
theorem Srv.Owns.handleAccept (h : srv.Owns accepted) {connfd clk : Nat} (hfresh : connfd ∉ srv.fds)
    (hrun : handleAccept connfd clk srv = some srv') : srv'.Owns (accepted ++ [connfd]) := by
  obtain ⟨links, -, hrest⟩ := Option.bind_eq_some_iff.mp hrun
  generalize (if srv.fd2conn.length ≤ connfd then resizeTo (connfd + 1) srv.fd2conn
    else srv.fd2conn) = fd2conn at hrest
  dsimp only at hrest
  split at hrest
  · cases hrest
  cases hrest
  have hget := Arena.read_alloc srv.conns { Conn.new with fd := connfd, lastActiveMs := clk }
  have hsame : ∀ d x, (srv.conns.alloc { Conn.new with fd := connfd, lastActiveMs := clk }).1.read d = some x →
      (d = srv.conns.next ∧ x.fd = connfd) ∨ srv.conns.read d = some x := by
    intro d x hd
    rw [hget] at hd
    split at hd
    · cases hd
      exact .inl ⟨‹_›, rfl⟩
    · exact .inr hd
  refine ⟨fun d x hd => ?_, fun d e x y hd he hxy => ?_, ?_⟩
  · rcases hsame d x hd with ⟨-, hx⟩ | hd
    · exact hx ▸ List.mem_cons_self
    · exact List.mem_cons_of_mem _ (h.opened d x hd)
  · rcases hsame d x hd with ⟨hd, hx⟩ | hd <;> rcases hsame e y he with ⟨he, hy⟩ | he
    · exact hd.trans he.symm
    · exact absurd (h.opened e y he) (hxy ▸ hx.symm ▸ hfresh)
    · exact absurd (h.opened d x hd) (hxy ▸ hy.symm ▸ hfresh)
    · exact h.inj d e x y hd he hxy
  · have hcount := h.count.append_right [connfd]
    rw [List.append_assoc] at hcount
    exact (List.Perm.append_left _ (List.perm_append_singleton connfd srv.fds).symm).trans hcount

theorem Srv.Owns.closeIdle {now : Nat} (h : srv.Owns accepted) (hrun : closeIdle now srv = some srv') :
    srv'.Owns accepted := by
  refine loop_inv (Srv.Owns · accepted) (Srv.Owns · accepted) ?_ ?_ h hrun
  · intro s s' hs hturn
    rcases idleTurn_cases hturn with hdone | ⟨c, s₁, hagain, hdestroy⟩
    · cases hdone
    · cases hagain
      exact hs.destroy hdestroy
  · intro s b hs hturn
    rcases idleTurn_cases hturn with hdone | ⟨c, s₁, hagain, -⟩
    · cases hdone
      exact hs
    · cases hagain

theorem Srv.Owns.iterate (h : srv.Owns accepted) {it : Iteration}
    (hpossible : ∀ r, it = .polled r → r.Possible srv) (hrun : iterate onRequest onTimer srv it = some srv') :
    srv'.Owns (accepted ++ it.accepted?.toList) := by
  cases it with
  | interrupted =>
    cases hrun
    rw [Iteration.accepted?, Option.toList_none, List.append_nil]
    exact h
  | polled r =>
    obtain ⟨srv₁, hround, htimers⟩ := Option.bind_eq_some_iff.mp hrun
    obtain ⟨args, -, hround⟩ := Option.bind_eq_some_iff.mp hround
    obtain ⟨srv₀, haccept, hserve⟩ := Option.bind_eq_some_iff.mp hround
    have h₀ : srv₀.Owns (accepted ++ (Iteration.polled r).accepted?.toList) := by
      have hfresh := (hpossible r rfl).fresh
      have hacc : (Iteration.polled r).accepted? = r.accept.bind AcceptResult.fd? := rfl
      rw [hacc]
      unfold acceptIfReady at haccept
      cases hr : r.accept with
      | none =>
        rw [hr] at haccept
        cases haccept
        rwa [Option.bind_none, Option.toList_none, List.append_nil]
      | some res =>
        rw [hr] at haccept
        cases res with
        | failed =>
          cases haccept
          rwa [Option.bind_some, AcceptResult.fd?, Option.toList_none, List.append_nil]
        | accepted connfd clk => exact h.handleAccept (hfresh connfd clk hr) haccept
    obtain ⟨srv₂, hidle, htimers⟩ := Option.bind_eq_some_iff.mp htimers
    obtain ⟨s', -, hlast⟩ := Option.bind_eq_some_iff.mp htimers
    have h₁ := h₀.serveAll hserve
    have h₁' : Srv.Owns { srv₁ with clock := r.now } _ := ⟨h₁.opened, h₁.inj, h₁.count⟩
    have h₂ := h₁'.closeIdle hidle
    cases hlast
    exact ⟨h₂.opened, h₂.inj, h₂.count⟩

theorem Srv.Owns.iterates : ∀ {its : List Iteration} {srv srv' : Srv σ} {accepted : List Nat}, srv.Owns accepted →
    Legal onRequest onTimer srv its → its.foldlM (ApexDB.iterate onRequest onTimer) srv = some srv' →
    srv'.Owns (accepted ++ its.filterMap Iteration.accepted?) := by
  intro its
  induction its with
  | nil =>
    intro srv srv' accepted h _ hrun
    cases hrun
    rwa [List.filterMap_nil, List.append_nil]
  | cons it its ih =>
    intro srv srv' accepted h hlegal hrun
    rw [List.foldlM_cons] at hrun
    obtain ⟨srv₁, hone, hrest⟩ := Option.bind_eq_some_iff.mp hrun
    have h' := ih (h.iterate hlegal.1 hone) (hlegal.2 srv₁ hone) hrest
    rw [List.append_assoc] at h'
    cases hit : it.accepted? with
    | none => simpa [hit] using h'
    | some fd => simpa [hit] using h'

end Owns

/-! ## 2. The loop after the loop

The loop goes over the positions of `fd2conn` in their order, and some of them are empty. Its
table shrinks to nothing on the way.
-/

section Stop

variable {srv : Srv σ} {l : List ConnId} {accepted : List Nat}

/-- **The loop over `fd2conn`** closes whatever has its descriptor among the positions to come.
-/
theorem closeAll_spec : ∀ {is : List Nat} {srv : Srv σ} {l : List ConnId}, srv.Table l → srv.Owns accepted →
    (∀ i ∈ is, i < srv.fd2conn.length) → (∀ c conn, srv.conns.read c = some conn → conn.fd ∈ is) →
    ∃ srv' l', is.foldlM closeSlot srv = some srv' ∧
      srv'.Table l' ∧ srv'.Owns accepted ∧ (∀ c, srv'.conns.read c = none) ∧ srv'.state = srv.state := by
  intro is
  induction is with
  | nil =>
    intro srv l h ho _ hlive
    refine ⟨srv, l, rfl, h, ho, fun c => ?_, rfl⟩
    rw [Option.eq_none_iff_forall_ne_some]
    intro conn hread
    exact absurd (hlive c conn hread) List.not_mem_nil
  | cons i is ih =>
    intro srv l h ho hlen hlive
    have hi := hlen i List.mem_cons_self
    have hslot : srv.fd2conn[i]? = some srv.fd2conn[i] := List.getElem?_eq_getElem hi
    rw [List.foldlM_cons, closeSlot, hslot]
    cases hv : srv.fd2conn[i] with
    | none =>
      -- no connection has this descriptor
      refine ih h ho (fun j hj => hlen j (List.mem_cons_of_mem _ hj)) fun c conn hread => ?_
      refine (List.mem_cons.mp (hlive c conn hread)).resolve_left fun hfd => ?_
      have htable := (h.slots.table i c).mpr ⟨conn, hread, hfd⟩
      rw [hslot, hv] at htable
      cases htable
    | some c =>
      obtain ⟨conn, hread, hfd⟩ := (h.slots.table i c).mp (by rw [hslot, hv])
      obtain ⟨srv₁, hdestroy, h₁, hreads, -, hstate, -⟩ := connDestroy_spec h hread
      have hlen₁ : srv₁.fd2conn.length = srv.fd2conn.length := by
        obtain ⟨conn', -, -, -, hset, -⟩ := connDestroy_closes hdestroy
        rw [hset, List.length_set]
      have hlive₁ : ∀ d conn', srv₁.conns.read d = some conn' → conn'.fd ∈ is := by
        intro d conn' hd
        rw [hreads] at hd
        split at hd
        · cases hd
        · rename_i hne
          refine (List.mem_cons.mp (hlive d conn' hd)).resolve_left fun hfd' => hne ?_
          exact ho.inj d c conn' conn hd hread (hfd'.trans hfd.symm)
      obtain ⟨srv', l', hrest, h', ho', hnone, hstate'⟩ := ih h₁ (ho.destroy hdestroy)
        (fun j hj => hlen₁ ▸ hlen j (List.mem_cons_of_mem _ hj)) hlive₁
      refine ⟨srv', l', ?_, h', ho', hnone, hstate'.trans hstate⟩
      simp only [Option.bind_eq_bind, Option.bind_some, hdestroy]
      exact hrest

/-- **After `run_tcp_server` nothing is open and nothing is left.** -/
theorem stopServer_spec (h : srv.Table l) (ho : srv.Owns accepted) :
    ∃ srv', stopServer srv = some srv' ∧ srv'.fds = [] ∧ srv'.closed.Perm accepted ∧
      (srv'.conns.freed.map Prod.fst).Perm (List.range srv'.conns.next) ∧
      dlistEmpty srv'.links .idleList = some true ∧ srv'.state = srv.state := by
  obtain ⟨srv₁, l₁, hrun, h₁, ho₁, hnone, hstate⟩ := closeAll_spec h ho
    (fun i hi => List.mem_range.mp hi) fun c conn hread => List.mem_range.mpr (h.slots.lt_length hread)
  have hfds : srv₁.fds = [] := by
    refine List.eq_nil_iff_forall_not_mem.mpr fun fd hfd => ?_
    obtain ⟨c, conn, hread, -⟩ := (h₁.slots.opened fd).mp hfd
    rw [hnone] at hread
    cases hread
  have hnil : l₁ = [] := by
    refine List.eq_nil_iff_forall_not_mem.mpr fun c hc => ?_
    obtain ⟨conn, hread⟩ := h₁.list.exists_conn hc
    rw [hnone] at hread
    cases hread
  have hcount := ho₁.count
  rw [hfds, List.append_nil] at hcount
  subst hnil
  refine ⟨{ srv₁ with fd2conn := [] }, ?_, hfds, hcount, Arena.freed_perm hnone, h₁.idle_nil, hstate⟩
  rw [stopServer, hrun]
  rfl

end Stop

/-! ## 3. From the start to the end of a program

The event loop and the store are put together here, with the ticks of the clock and the works of
the pool that a run of the program goes through.
-/

/-- One client makes a sorted set of three members and takes one of them out; another one sets a
key. -/
def setAndString : List Iteration :=
  let zadd := fun name => encodeRequest [bytes "zadd", bytes "z", bytes "0", name]
  [.polled { accept := some (.accepted 3 10), ready := [], now := 20 },
    .polled
      { accept := some (.accepted 5 25)
        ready := [some (30, ⟨true, false, false, .data (zadd (bytes "a") ++ zadd (bytes "b") ++ zadd (bytes "c") ++
          encodeRequest [bytes "zrem", bytes "z", bytes "b"]), .wrote 100, .again⟩)]
        now := 40 },
    .polled
      { accept := none
        ready := [none, some (41, ⟨true, false, false,
          .data (encodeRequest [bytes "set", bytes "k", bytes "v"]), .wrote 3, .again⟩)]
        now := 50 }]

end ApexDB
