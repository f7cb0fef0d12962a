import ApexDB.Proof.Cluster
import ApexDB.Proof.Interest

/-!
# A remote call comes back

`Proof/TcpRpc.lean` says what was done when `tcp_rpc` has returned true. It does not say that it
returns. Two sides that each wait for the other would satisfy it, and so would a server that
holds an answer back.

**Neither happens.** While no call of the kernel fails, a byte that has not changed hands yet
can always do so next: the caller has something to send or to read, or `poll` was asked for what
the server can do (`Net.Sound.moves`). And bytes change hands a bounded number of times
(`Net.Inv.moved_le`), because a wire never takes one back. So the call is over after so many
transfers, in whatever order the two sides come to them.

When something does fail the caller returns false, or never, and knows nothing. What the server
may have done by then, and may do later, is one of four things, and these are the fates of a
call in `Faults.lean`.
-/

set_option autoImplicit false

namespace ApexDB

open Lib

variable {σ : Type} (h : Handler σ)

/-! ## 1. At most one call

The request is one frame, so the server cannot cut more than one request off it, and a part of a
frame is not yet a request. From the number of calls everything about the fates follows.
-/

/-- A front of a request is not a wrong request. -/
theorem not_bad_of_front {cmd : List Bytes} {x y : Bytes} (hx : encodeRequest cmd = x ++ y) :
    (requestCutter.drain x).bad = false := by
  cases hc : requestCutter.cut x with
  | more => rw [Cutter.drain_more hc]
  | bad =>
    have hne : encodeRequest cmd ≠ [] := by
      intro he
      rw [(List.append_eq_nil_iff.mp (hx.symm.trans he)).1] at hc
      cases hc
    have hcut : Cut.item cmd [] = .bad :=
      (cutRequest_encode hne).symm.trans (hx ▸ requestCutter.bad_append hc y)
    cases hcut
  | item c rest =>
    have hne : encodeRequest cmd ≠ [] := by
      intro he
      have hlt := requestCutter.shrinks hc
      rw [(List.append_eq_nil_iff.mp (hx.symm.trans he)).1] at hlt
      exact absurd hlt (Nat.not_lt_zero _)
    have hcut : Cut.item cmd [] = .item c (rest ++ y) :=
      (cutRequest_encode hne).symm.trans (hx ▸ requestCutter.item_append hc y)
    injection hcut with _ hrest
    rw [Cutter.drain_item hc, (List.append_eq_nil_iff.mp hrest.symm).1, drain_nil]

section Calls

variable {cmd : List Bytes} {N N' : Net σ}

/-- **The server is called for this command once, or not at all.** -/
theorem Net.Inv.calls_cases (hN : N.Inv h (encodeRequest cmd)) :
    N.session.calls = [] ∨ ∃ s, N.session.calls = [(s, cmd)] := by
  obtain ⟨left, hreq, -⟩ := hN.sends
  rcases items_of_front hreq with hitems | hitems
  · rw [← hN.session.calls, List.map_eq_nil_iff] at hitems
    exact .inl hitems
  · rw [← hN.session.calls] at hitems
    obtain ⟨⟨s, c⟩, hcalls, rfl⟩ := List.map_eq_singleton_iff.mp hitems
    exact .inr ⟨s, hcalls⟩

/-- What the server has answered with, or will, is at most one frame. -/
theorem Net.Inv.replies_cases (hN : N.Inv h (encodeRequest cmd)) :
    N.session.written ++ N.session.conn.outgoing = [] ∨
      ∃ b, N.session.written ++ N.session.conn.outgoing = frameOf b := by
  rw [hN.session.replies]
  rcases hN.calls_cases h with hcalls | ⟨s, hcalls⟩
  · rw [hcalls]
    exact .inl rfl
  · rw [hcalls]
    exact .inr ⟨(h s cmd).2, by simp [response]⟩

theorem Session.step_calls {S S' : Session σ} {ev : LoopEvent σ} (hS : S.Inv h) (hstep : S.step h ev = some S') :
    S.calls <+: S'.calls := by
  cases ev with
  | poll ready =>
    by_cases hlive : S.live
    · obtain ⟨S₁, cmds, hstep₁, -, -, -, hcalls, -⟩ := Session.step_poll h hS hlive ready
      obtain rfl : S₁ = S' := Option.some.inj (hstep₁.symm.trans hstep)
      exact hcalls ▸ List.prefix_append _ _
    · rw [Session.step, if_neg hlive] at hstep
      cases hstep
      exact List.prefix_refl _
  | elsewhere s => cases hstep; exact List.prefix_refl _
  | timeout => cases hstep; exact List.prefix_refl _

theorem Net.step_calls {request : Bytes} {ev : NetEvent σ} (hN : N.Inv h request)
    (hstep : N.step h ev = some N') : N.session.calls <+: N'.session.calls := by
  cases ev with
  | caller rv =>
    cases hstep
    exact List.prefix_refl _
  | server ev =>
    obtain ⟨S, hS, hN'⟩ := Option.bind_eq_some_iff.mp hstep
    cases hN'
    exact Session.step_calls h hN.session hS

end Calls

/-- **The four fates of a remote call.** In any run, whatever fails on either side, split at a
point where `tcp_rpc` has returned: it returned true, and the handler was called once before,
and the response is the frame of that call; or it returned false, and the handler had been
called once or had not been called, and in the last case it may still be called later, once. It
is never called with anything else, and the result does not change. -/
theorem rpc_fates (s₀ : σ) (connected : Bool) (cmd : List Bytes) (evs evs' : List (NetEvent σ)) :
    ∃ N N', evs.foldlM (Net.step h) ⟨tcpRpc connected cmd, { state := s₀ }, [], []⟩ = some N ∧
      evs'.foldlM (Net.step h) N = some N' ∧
      ∀ result out, N.rpc = .returned result out → N'.rpc = .returned result out ∧
        ((result = true ∧ ∃ s, N.session.calls = [(s, cmd)] ∧ N'.session.calls = [(s, cmd)] ∧
            out = frameOf (h s cmd).2) ∨
          (result = false ∧ ∃ s, N.session.calls = [(s, cmd)] ∧ N'.session.calls = [(s, cmd)]) ∨
          (result = false ∧ N.session.calls = [] ∧ ∃ s, N'.session.calls = [(s, cmd)]) ∨
          (result = false ∧ N.session.calls = [] ∧ N'.session.calls = [])) := by
  obtain ⟨N, hrun, hN⟩ := Net.run_inv h s₀ connected (encodeRequest cmd) evs
  obtain ⟨N', hrun', ⟨hN', hsofar⟩, hkeep⟩ := foldlM_inv
    (fun N₁ : Net σ => (N₁.Inv h (encodeRequest cmd) ∧ N.session.calls <+: N₁.session.calls) ∧
      ∀ result out, N.rpc = .returned result out → N₁.rpc = .returned result out) (fun _ => True)
    (fun N₁ ev _ hN₁ => by
      obtain ⟨N₂, hstep, hN₂⟩ := Net.step_inv h hN₁.1.1 ev
      exact ⟨N₂, hstep, ⟨hN₂, hN₁.1.2.trans (Net.step_calls h hN₁.1.1 hstep)⟩,
        fun result out hret => Net.step_returned h hstep (hN₁.2 result out hret)⟩)
    evs' N (fun _ _ => trivial) ⟨⟨hN, List.prefix_refl _⟩, fun _ _ => id⟩
  refine ⟨N, N', hrun, hrun', fun result out hret => ⟨hkeep result out hret, ?_⟩⟩
  -- a call that was made is the only one, so it is the one that is there later
  have hlater : ∀ s, N.session.calls = [(s, cmd)] → N'.session.calls = [(s, cmd)] := by
    intro s hcalls
    rw [hcalls] at hsofar
    rcases hN'.calls_cases h with hnil | ⟨s', hcalls'⟩
    · rw [hnil] at hsofar
      exact absurd (List.prefix_nil.mp hsofar) (List.cons_ne_nil _ _)
    · rw [hcalls'] at hsofar ⊢
      exact (hsofar.eq_of_length rfl).symm
  cases result with
  | true =>
    obtain ⟨s, hcalls, hout⟩ := hN.returned h hret
    exact .inl ⟨rfl, s, hcalls, hlater s hcalls, hout⟩
  | false =>
    rcases hN.calls_cases h with hnone | ⟨s, hcalls⟩
    · rcases hN'.calls_cases h with hnone' | hcalls'
      · exact .inr (.inr (.inr ⟨rfl, hnone, hnone'⟩))
      · exact .inr (.inr (.inl ⟨rfl, hnone, hcalls'⟩))
    · exact .inr (.inl ⟨rfl, s, hcalls, hlater s hcalls⟩)

/-! ## 2. Bytes change hands

A byte of the request is sent and then received, and a byte of the response written and then
read. That is two transfers each, and each call of the kernel that is of any use makes at least
one.
-/

/-- How often bytes have changed hands: each that was sent, received, written or read counts. -/
def Net.moved (N : Net σ) : Nat :=
  N.session.received.length + N.toServer.length + N.session.received.length +
    (N.session.written.length + (N.session.written.length - N.toCaller.length))

/-- Something is on a wire that was not, or the other way round. -/
def Net.transfer (N N' : Net σ) : Bool := N'.toServer ≠ N.toServer || N'.toCaller ≠ N.toCaller

def Net.transfers : Net σ → List (NetEvent σ) → Nat
  | _, [] => 0
  | N, ev :: evs =>
    match N.step h ev with
    | none => 0
    | some N' => (N.transfer N').toNat + N'.transfers evs

section Moved

variable {request : Bytes} {N N' : Net σ}

theorem Net.Inv.moved_step (hN : N.Inv h request) {ev : NetEvent σ} (hstep : N.step h ev = some N') :
    N.moved + (N.transfer N').toNat ≤ N'.moved := by
  obtain ⟨left, -, hleft⟩ := hN.sends
  obtain ⟨taken, hwritten, htaken⟩ := hN.reads
  have hlen := congrArg List.length hwritten
  rw [List.length_append] at hlen
  -- a transfer moves a byte one way or the other
  have hsome : ∀ {N' : Net σ} {a b : Nat}, (N.transfer N' = true → 0 < a + b) →
      (N.transfer N').toNat ≤ a + b := by
    intro N' a b hpos
    cases ht : N.transfer N' with
    | false => exact Nat.zero_le _
    | true => exact hpos ht
  cases ev with
  | caller rv =>
    obtain ⟨rpc', sent, rest, left', chunk, hrpc, -, -, hwire, -⟩ :=
      Rpc.step_spec rv N.toCaller hleft htaken
    rw [Net.step, hrpc] at hstep
    cases hstep
    have hcount : (N.transfer ⟨rpc', N.session, N.toServer ++ sent, rest⟩).toNat ≤ sent.length + chunk.length := by
      refine hsome fun ht => ?_
      by_contra hzero
      have hsent : sent = [] := List.length_eq_zero_iff.mp (by omega)
      have hchunk : chunk = [] := List.length_eq_zero_iff.mp (by omega)
      simp [Net.transfer, hsent, hwire, hchunk] at ht
    have hrest := congrArg List.length hwire
    rw [List.length_append] at hrest
    simp only [Net.moved, List.length_append]
    omega
  | server ev =>
    obtain ⟨S, hS, hN'⟩ := Option.bind_eq_some_iff.mp hstep
    obtain ⟨chunk, rest, hwire, hreceived⟩ := Session.step_ofWire h hS
    obtain ⟨-, sent, hsent⟩ := Session.step_grows h hS
    cases hN'
    simp only [hsent, hreceived, hwire, List.drop_left, List.length_append, Nat.add_sub_cancel_left] at hlen ⊢
    have hcount : (N.transfer ⟨N.rpc, S, rest, N.toCaller ++ sent⟩).toNat ≤ chunk.length + sent.length := by
      refine hsome fun ht => ?_
      by_contra hzero
      have hsent : sent = [] := List.length_eq_zero_iff.mp (by omega)
      have hchunk : chunk = [] := List.length_eq_zero_iff.mp (by omega)
      simp [Net.transfer, hsent, hwire, hchunk] at ht
    have hrest := congrArg List.length hwire
    rw [List.length_append] at hrest
    simp only [Net.moved, hsent, hreceived, List.length_append]
    omega

/-- **There is an end to it**: twice the bytes of the request and of the longest response. -/
theorem Net.Inv.moved_le {cmd : List Bytes} (hN : N.Inv h (encodeRequest cmd)) :
    N.moved ≤ 2 * ((encodeRequest cmd).length + 4 + kMaxMsg) := by
  obtain ⟨left, hreq, -⟩ := hN.sends
  have hlen := congrArg List.length hreq
  simp only [List.length_append] at hlen
  have hout : N.session.written.length ≤ 4 + kMaxMsg := by
    have hle : N.session.written.length ≤ (N.session.written ++ N.session.conn.outgoing).length := by
      rw [List.length_append]
      exact Nat.le_add_right _ _
    rcases hN.replies_cases h with hnil | ⟨b, hframe⟩
    · rw [hnil] at hle
      exact hle.trans (Nat.zero_le _)
    · rw [hframe, length_frameOf] at hle
      exact hle.trans (Nat.add_le_add_left (length_bodyOf b) 4)
  unfold Net.moved
  omega

theorem Net.Inv.transfers_le {cmd : List Bytes} : ∀ (evs : List (NetEvent σ)) {N : Net σ},
    N.Inv h (encodeRequest cmd) →
    N.moved + N.transfers h evs ≤ 2 * ((encodeRequest cmd).length + 4 + kMaxMsg) := by
  intro evs
  induction evs with
  | nil => exact fun hN => hN.moved_le h
  | cons ev evs ih =>
    intro N hN
    obtain ⟨N', hstep, hN'⟩ := Net.step_inv h hN ev
    have hmoved := hN.moved_step h hstep
    have hrest := ih hN'
    simp only [Net.transfers, hstep]
    omega

end Moved

/-! ## 3. A network that works

What has to be assumed is said per event, and for what is really there: `read` may return less
than was asked for, but not nothing where there is something.
-/

def Rpc.reads : Rpc → Bool
  | .header _ _ | .body _ _ => true
  | _ => false

def ReadResult.works : ReadResult → Bool
  | .data _ | .again => true
  | _ => false

def WriteResult.works : WriteResult → Bool
  | .wrote _ | .again => true
  | _ => false

/-- No call of this event fails: `send` takes something, `read` returns when there is something,
`poll` reports what it was asked for, and the connection is not idle for too long. -/
def Net.works (N : Net σ) : NetEvent σ → Bool
  | .caller .eintr => true
  | .caller .error => false
  | .caller (.count n) => n ≠ 0 && (!N.rpc.reads || N.toCaller ≠ [])
  | .server (.poll ready) =>
    !ready.pollerr && (!ready.pollin || N.session.conn.wantRead) &&
      (!ready.pollout || N.session.conn.wantWrite) && ready.read.works && ready.write.works && ready.write'.works
  | .server (.elsewhere _) => true
  | .server .timeout => false

def Net.worksAlong : Net σ → List (NetEvent σ) → Bool
  | _, [] => true
  | N, ev :: evs =>
    N.works ev && match N.step h ev with
      | none => false
      | some N' => N'.worksAlong evs

/-- Something is left to do in the call, and it has not failed. -/
def Rpc.Going : Rpc → Prop
  | .writing buf => buf ≠ []
  | .header _ n | .body _ n => 0 < n
  | .returned result _ => result = true

/-- **What holds while nothing fails**: the bytes are in order, the call has not given up, and
the connection is open and settled. -/
structure Net.Sound (request : Bytes) (N : Net σ) : Prop extends N.Inv h request where
  going : N.rpc.Going
  live : N.session.live = true
  settled : N.session.conn.Settled

/-- `read_full`, when something is there: some of it is taken. -/
theorem readFull_some {k n : Nat} {wire : Bytes} (buf : Bytes) (hk : k ≠ 0) (hn : 0 < n) (hwire : wire ≠ []) :
    ∃ chunk rest, wire = chunk ++ rest ∧ chunk ≠ [] ∧
      (chunk.length < n ∧ readFull (.count k) wire buf n = (.again (buf ++ chunk, n - chunk.length), rest) ∨
        chunk.length = n ∧ readFull (.count k) wire buf n = (.done (some (buf ++ chunk)), rest)) := by
  have hne : wire.take (min k n) ≠ [] := by
    rw [ne_eq, List.take_eq_nil_iff, not_or]
    exact ⟨by omega, hwire⟩
  have hempty : ¬(wire.take (min k n)).isEmpty := by rwa [List.isEmpty_iff]
  have hle : (wire.take (min k n)).length ≤ n := by
    rw [List.length_take]
    omega
  have hsplit := List.prefix_iff_eq_append.mp (List.take_prefix (min k n) wire)
  refine ⟨_, _, hsplit.symm, hne, ?_⟩
  rcases Nat.lt_or_eq_of_le hle with hlt | heq
  · exact .inl ⟨hlt, by simp only [readFull, if_neg hempty, if_neg (Nat.ne_of_lt hlt)]⟩
  · exact .inr ⟨heq, by simp only [readFull, if_neg hempty, if_pos heq]⟩

/-- **The caller goes on**, if no response on the wire is too long. -/
theorem Rpc.step_going {rpc : Rpc} {rv : Rv} {wire taken : Bytes} (hgoing : rpc.Going) (htook : rpc.Took taken)
    (hrv : rv = .eintr ∨ ∃ n, rv = .count n ∧ n ≠ 0 ∧ (rpc.reads = true → wire ≠ []))
    (hshort : ∀ hdr, hdr.length = 4 → hdr <+: taken ++ wire → ofLe hdr ≤ kMaxMsg) :
    (rpc.step rv wire).1.Going := by
  cases rpc with
  | writing buf =>
    rcases hrv with rfl | ⟨n, rfl, hn, -⟩
    · exact hgoing
    · have hne : ¬(buf.take n).isEmpty := by
        rw [List.isEmpty_iff, List.take_eq_nil_iff, not_or]
        exact ⟨hn, hgoing⟩
      by_cases hall : (buf.take n).length = buf.length
      · simp only [Rpc.step, writeFull, if_neg hne, if_pos hall]
        exact Nat.succ_pos 3
      · simp only [Rpc.step, writeFull, if_neg hne, if_neg hall]
        have hlt : (buf.take n).length < buf.length :=
          Nat.lt_of_le_of_ne (List.length_take_le' n buf) hall
        intro hnil
        exact absurd (List.drop_eq_nil_iff.mp hnil) (Nat.not_le.mpr hlt)
  | header hdr n =>
    obtain ⟨rfl, h4⟩ : taken = hdr ∧ hdr.length + n = 4 := htook
    rcases hrv with rfl | ⟨k, rfl, hk, hwire⟩
    · exact hgoing
    · obtain ⟨chunk, rest, hsplit, -, ⟨hlt, hread⟩ | ⟨hlen, hread⟩⟩ := readFull_some taken hk hgoing (hwire rfl)
      · rw [Rpc.step, hread]
        exact Nat.sub_pos_of_lt hlt
      · rw [Rpc.step, hread]
        have hfour : (taken ++ chunk).length = 4 := by
          rw [List.length_append]
          omega
        have hle := hshort (taken ++ chunk) hfour (by rw [hsplit, ← List.append_assoc]; exact List.prefix_append _ _)
        show (Rpc.readBody (taken ++ chunk)).Going
        rw [Rpc.readBody, if_neg (Nat.not_lt.mpr hle)]
        split
        · exact rfl
        · exact Nat.pos_of_ne_zero ‹_›
  | body buf n =>
    rcases hrv with rfl | ⟨k, rfl, hk, hwire⟩
    · exact hgoing
    · obtain ⟨chunk, rest, -, -, ⟨hlt, hread⟩ | ⟨-, hread⟩⟩ := readFull_some buf hk hgoing (hwire rfl)
      · rw [Rpc.step, hread]
        exact Nat.sub_pos_of_lt hlt
      · rw [Rpc.step, hread]
        exact rfl
  | returned _ _ => exact hgoing

theorem handler_serves : Serves h.onRequest (fun s _ => some s) fun _ => True where
  request := fun s cmd _ _ => ⟨_, (h s.1 cmd).2, rfl, trivial⟩
  timer := fun s _ _ => ⟨s, rfl, trivial⟩

section Works

variable {cmd : List Bytes} {N N' : Net σ}

/-- No header on its way announces too much. -/
theorem Net.Inv.short (hN : N.Inv h (encodeRequest cmd)) {hdr : Bytes} (h4 : hdr.length = 4)
    (hfront : hdr <+: N.session.written) : ofLe hdr ≤ kMaxMsg := by
  have hall : hdr <+: N.session.written ++ N.session.conn.outgoing := hfront.trans (List.prefix_append _ _)
  rcases hN.replies_cases h with hnil | ⟨b, hframe⟩
  · rw [hnil, List.prefix_nil] at hall
    rw [hall] at h4
    exact absurd h4 (by simp)
  · rw [hframe, List.prefix_iff_eq_take, h4] at hall
    rw [hall, ofLe_take_frameOf]
    exact length_bodyOf b

/-- A round in which nothing fails leaves the connection open and settled. -/
theorem Session.step_works {S S' : Session σ} {ready : Ready} (hS : S.Inv h) (hlive : S.live = true)
    (hsettled : S.conn.Settled) (hstep : S.step h (.poll ready) = some S') (herr : ready.pollerr = false)
    (hok : ¬ready.Fails) (hgood : (requestCutter.drain S'.received).bad = false) :
    S'.live = true ∧ S'.conn.Settled := by
  obtain ⟨S₁, -, hstep₁, -, -, -, -, hclose⟩ := Session.step_poll h hS hlive ready
  obtain rfl : S₁ = S' := Option.some.inj (hstep₁.symm.trans hstep)
  have hopen : S₁.conn.wantClose = false := by
    rw [Bool.eq_false_iff]
    intro hw
    rcases hclose hw with hbad | hfails
    · rw [hgood] at hbad
      cases hbad
    · exact hok hfails
  rw [Session.step, if_pos hlive] at hstep
  obtain ⟨⟨⟨s, calls⟩, conn, sent, destroyed⟩, hserve, hS₁⟩ := Option.bind_eq_some_iff.mp hstep
  cases hS₁
  obtain rfl : destroyed = false := by
    obtain ⟨⟨_, c, _⟩, -, hrest⟩ := Option.bind_eq_some_iff.mp hserve
    obtain ⟨⟨c', _⟩, -, hlast⟩ := Option.bind_eq_some_iff.mp hrest
    cases hlast
    rw [herr, Bool.false_or]
    exact hopen
  exact ⟨rfl, ((serveConn_settled (handler_serves h) trivial hsettled hserve).2 rfl).2⟩

theorem not_fails_ofWire {ready : Ready} {wire : Bytes} (hread : ready.read.works = true)
    (hwrite : ready.write.works = true) (hwrite' : ready.write'.works = true) :
    ¬Ready.Fails { ready with read := ready.read.ofWire wire } := by
  have hok : ∀ {w : WriteResult}, w.works = true → ¬w.Fails := by
    rintro w hw rfl
    cases hw
  rintro (hf | hf | hf)
  · cases hr : ready.read with
    | data chunk =>
      rw [hr] at hf
      simp only [ReadResult.ofWire] at hf
      split at hf <;> rcases hf with hf | hf <;> cases hf
    | again => rw [hr] at hf; rcases hf with hf | hf <;> cases hf
    | eof => rw [hr] at hread; cases hread
    | error => rw [hr] at hread; cases hread
  · exact hok hwrite hf
  · exact hok hwrite' hf

/-- **A step in which nothing fails keeps all of it.** -/
theorem Net.Sound.step (hN : N.Sound h (encodeRequest cmd)) {ev : NetEvent σ} (hev : N.works ev = true) :
    ∃ N', N.step h ev = some N' ∧ N'.Sound h (encodeRequest cmd) := by
  obtain ⟨N', hstep, hN'⟩ := Net.step_inv h hN.toInv ev
  refine ⟨N', hstep, ?_⟩
  cases ev with
  | caller rv =>
    obtain ⟨taken, hwritten, htook⟩ := hN.reads
    have hgoing : (N.rpc.step rv N.toCaller).1.Going := by
      refine Rpc.step_going hN.going htook ?_ fun hdr h4 hfront => hN.toInv.short h h4 (hwritten ▸ hfront)
      cases rv with
      | eintr => exact .inl rfl
      | error => cases hev
      | count n =>
        simp only [Net.works, Bool.and_eq_true, decide_eq_true_eq] at hev
        refine .inr ⟨n, rfl, hev.1, fun hreads => ?_⟩
        simpa [hreads] using hev.2
    cases hstep
    exact ⟨hN', hgoing, hN.live, hN.settled⟩
  | server ev =>
    obtain ⟨S, hS, hNS⟩ := Option.bind_eq_some_iff.mp hstep
    cases hNS
    have hopen : S.live = true ∧ S.conn.Settled := by
      cases ev with
      | poll ready =>
        simp only [Net.works, Bool.and_eq_true, Bool.not_eq_true'] at hev
        obtain ⟨⟨⟨⟨⟨herr, -⟩, -⟩, hread⟩, hwrite⟩, hwrite'⟩ := hev
        obtain ⟨left, hreq, -⟩ := hN'.sends
        exact Session.step_works h hN.session hN.live hN.settled hS herr (not_fails_ofWire hread hwrite hwrite')
          (not_bad_of_front hreq)
      | elsewhere s =>
        cases hS
        exact ⟨hN.live, hN.settled⟩
      | timeout => cases hev
    exact ⟨hN', hN.going, hopen.1, hopen.2⟩

/-! ## 4. No deadlock

By where the caller is. While it sends it can go on by itself; while it waits, the request is on
the wire, in the server, or answered, and in each case it is known who can move.
-/

/-- There is an event in which nothing fails and bytes change hands. -/
def Net.CanMove (N : Net σ) : Prop :=
  ∃ ev N', N.works ev = true ∧ N.step h ev = some N' ∧ N.transfer N' = true

theorem Net.Sound.server_reads {request : Bytes} (hN : N.Sound h request)
    (hread : N.session.conn.wantRead = true) (hwire : N.toServer ≠ []) : N.CanMove h := by
  obtain ⟨ready, hready⟩ : ∃ ready : Ready, ready = ⟨true, false, false, .data N.toServer, .again, .again⟩ :=
    ⟨_, rfl⟩
  have hofWire : (LoopEvent.poll ready : LoopEvent σ).ofWire N.toServer = .poll ready := by
    have hne : ¬N.toServer.isEmpty := by rwa [List.isEmpty_iff]
    simp only [LoopEvent.ofWire, hready, ReadResult.ofWire, List.take_length, if_neg hne]
  obtain ⟨S, -, hstep, -, hreceived, -⟩ := Session.step_poll h hN.session hN.live ready
  have hchunk : ready.chunk = N.toServer := by rw [hready]; rfl
  refine ⟨.server (.poll ready), _, ?_, by rw [Net.step, hofWire, hstep]; rfl, ?_⟩
  · simp [Net.works, hready, hread, ReadResult.works, WriteResult.works]
  · have hgone : N.toServer.drop (S.received.length - N.session.received.length) = [] := by
      rw [hreceived, hchunk, List.length_append, Nat.add_sub_cancel_left, List.drop_length]
    simp only [Net.transfer, hgone, Bool.or_eq_true, decide_eq_true_eq]
    exact .inl hwire.symm

theorem Net.Sound.server_writes {request : Bytes} (hN : N.Sound h request)
    (hout : N.session.conn.outgoing ≠ []) : N.CanMove h := by
  obtain ⟨ready, hready⟩ : ∃ ready : Ready, ready = ⟨false, true, false, .again, .again, .wrote 1⟩ := ⟨_, rfl⟩
  have hempty : N.session.conn.outgoing.isEmpty = false := by rwa [List.isEmpty_eq_false_iff]
  have hopen := hN.session.alive hN.live
  have hwant : N.session.conn.wantWrite = true := by rw [hN.settled.write, hempty]; rfl
  obtain ⟨conn, hwrite⟩ : ∃ conn, handleWrite (.wrote 1) N.session.conn =
      some (conn, N.session.conn.outgoing.take 1) := by
    unfold handleWrite
    rw [hempty]
    exact ⟨_, rfl⟩
  have hserve : serveConn h.onRequest ready (N.session.state, N.session.calls) N.session.conn =
      some ((N.session.state, N.session.calls), conn, [] ++ N.session.conn.outgoing.take 1, conn.wantClose) := by
    simp [serveConn, hready, hopen, hout, hwrite]
  obtain ⟨S, hstep, hsent⟩ : ∃ S, N.session.step h (.poll ready) = some S ∧
      S.written = N.session.written ++ N.session.conn.outgoing.take 1 := by
    rw [Session.step, if_pos hN.live, hserve]
    exact ⟨_, rfl, rfl⟩
  refine ⟨.server (.poll ready), _, ?_, by rw [Net.step, show LoopEvent.ofWire N.toServer (.poll ready) =
    (.poll ready : LoopEvent σ) by rw [hready]; rfl, hstep]; rfl, ?_⟩
  · simp [Net.works, hready, hwant, ReadResult.works, WriteResult.works]
  · have hnew : S.written.drop N.session.written.length = N.session.conn.outgoing.take 1 := by
      rw [hsent, List.drop_left]
    simp only [Net.transfer, hnew, Bool.or_eq_true, decide_eq_true_eq]
    refine .inr fun hsame => hout ?_
    have htake := List.append_right_eq_self.mp hsame
    rwa [List.take_eq_nil_iff, or_iff_right Nat.one_ne_zero] at htake

theorem Net.step_caller (N : Net σ) (rv : Rv) : N.step h (.caller rv) =
    some ⟨(N.rpc.step rv N.toCaller).1, N.session, N.toServer ++ (N.rpc.step rv N.toCaller).2.1,
      (N.rpc.step rv N.toCaller).2.2⟩ := rfl

theorem Net.Sound.caller_reads {request : Bytes} (hN : N.Sound h request) {buf : Bytes} {n : Nat}
    (hrpc : N.rpc = .header buf n ∨ N.rpc = .body buf n) (hwire : N.toCaller ≠ []) : N.CanMove h := by
  have hreads : N.rpc.reads = true := by rcases hrpc with hr | hr <;> rw [hr] <;> rfl
  have hn : 0 < n := by
    have hgoing := hN.going
    rcases hrpc with hr | hr <;> rw [hr] at hgoing <;> exact hgoing
  obtain ⟨chunk, rest, hsplit, hne, hread⟩ := readFull_some buf Nat.one_ne_zero hn hwire
  have hrest : (N.rpc.step (.count 1) N.toCaller).2.2 = rest := by
    rcases hrpc with hr | hr <;> rw [hr] <;> rcases hread with ⟨-, hread⟩ | ⟨-, hread⟩ <;> rw [Rpc.step, hread]
  refine ⟨.caller (.count 1), _, by simp [Net.works, hwire], Net.step_caller h N (.count 1), ?_⟩
  simp only [Net.transfer, hrest, Bool.or_eq_true, decide_eq_true_eq]
  refine .inr fun hsame => hne ?_
  rw [hsplit] at hsame
  exact List.append_left_eq_self.mp hsame.symm

/-- **The call is over, or bytes can change hands.** The cases are where the request is: with
the caller, on the wire, or in the server, which has answered it or will. -/
theorem Net.Sound.moves (hN : N.Sound h (encodeRequest cmd)) (henc : encodeRequest cmd ≠ []) :
    (∃ s, N.session.calls = [(s, cmd)] ∧ N.rpc = .returned true (frameOf (h s cmd).2)) ∨ N.CanMove h := by
  obtain ⟨left, hreq, hleft⟩ := hN.sends
  obtain ⟨taken, hwritten, htook⟩ := hN.reads
  -- with the request on its way, the caller has something to read or the server has something to do
  have hwaits : ∀ {buf n}, N.rpc = .header buf n ∨ N.rpc = .body buf n → left = [] →
      (∀ b, frameOf b ≠ taken) → N.CanMove h := by
    intro buf n hrpc hnil hpart
    by_cases hcaller : N.toCaller = []
    · by_cases hout : N.session.conn.outgoing = []
      · by_cases hserver : N.toServer = []
        · -- all was received, so there is an answer, and all of it was read
          rw [hnil, hserver, List.append_nil, List.append_nil] at hreq
          have hitems : N.session.calls.map Prod.snd = [cmd] := by
            have hcut : requestCutter.cut (encodeRequest cmd) = .item cmd [] := cutRequest_encode henc
            rw [hN.session.calls, ← hreq, Cutter.drain_item hcut, drain_nil]
          obtain ⟨⟨s, c⟩, hcalls, rfl⟩ := List.map_eq_singleton_iff.mp hitems
          have hreplies := hN.session.replies
          rw [hcalls, hwritten, hcaller, hout, List.append_nil, List.append_nil] at hreplies
          exact absurd (by simpa [response] using hreplies.symm) (hpart (h s c).2)
        · refine hN.server_reads h ?_ hserver
          rw [hN.settled.read, hout]
          rfl
      · exact hN.server_writes h hout
    · exact hN.caller_reads h hrpc hcaller
  cases hrpc : N.rpc with
  | writing buf =>
    have hgoing := hN.going
    rw [hrpc] at hgoing
    refine .inr ⟨.caller (.count 1), _, by simp [Net.works, hrpc, Rpc.reads], Net.step_caller h N (.count 1), ?_⟩
    have hne : ¬(buf.take 1).isEmpty := by
      rw [List.isEmpty_iff, List.take_eq_nil_iff, not_or]
      exact ⟨Nat.one_ne_zero, hgoing⟩
    have hsent : (Rpc.step (.count 1) N.toCaller (.writing buf)).2.1 = buf.take 1 := by
      by_cases hall : (buf.take 1).length = buf.length
      · simp only [Rpc.step, writeFull, if_neg hne, if_pos hall]
      · simp only [Rpc.step, writeFull, if_neg hne, if_neg hall]
    simp only [Net.transfer, hrpc, hsent, Bool.or_eq_true, decide_eq_true_eq]
    refine .inl fun hsame => hne ?_
    rw [List.append_right_eq_self.mp hsame]
    rfl
  | header hdr n =>
    have hgoing := hN.going
    rw [hrpc] at hleft htook hgoing
    obtain ⟨rfl, h4⟩ : taken = hdr ∧ hdr.length + n = 4 := htook
    refine .inr (hwaits (.inl hrpc) hleft fun b hb => ?_)
    have hlen := congrArg List.length hb
    rw [length_frameOf] at hlen
    have hpos : 0 < n := hgoing
    omega
  | body out n =>
    have hgoing := hN.going
    rw [hrpc] at hleft htook hgoing
    obtain ⟨rfl, hframed⟩ : taken = out ∧ Framed out n := htook
    refine .inr (hwaits (.inr hrpc) hleft fun b hb => ?_)
    have hlen := hframed.2
    rw [← hb, length_frameOf, ofLe_take_frameOf] at hlen
    have hpos : 0 < n := hgoing
    omega
  | returned result out =>
    have hgoing := hN.going
    rw [hrpc] at hgoing
    obtain rfl : result = true := hgoing
    obtain ⟨s, hcalls, rfl⟩ := hN.toInv.returned h hrpc
    exact .inl ⟨s, hcalls, rfl⟩

end Works

theorem Net.Sound.run {cmd : List Bytes} : ∀ {evs : List (NetEvent σ)} {N : Net σ},
    N.Sound h (encodeRequest cmd) → N.worksAlong h evs = true →
    ∃ N', evs.foldlM (Net.step h) N = some N' ∧ N'.Sound h (encodeRequest cmd) := by
  intro evs
  induction evs with
  | nil => exact fun hN _ => ⟨_, rfl, hN⟩
  | cons ev evs ih =>
    intro N hN hworks
    rw [Net.worksAlong, Bool.and_eq_true] at hworks
    obtain ⟨N₁, hstep, hN₁⟩ := hN.step h hworks.1
    have hrest := hworks.2
    simp only [hstep] at hrest
    obtain ⟨N', hrun, hN'⟩ := ih hN₁ hrest
    exact ⟨N', by rw [List.foldlM_cons, hstep]; exact hrun, hN'⟩

/-- **A remote call comes back.** For every command that can be sent, in every interleaving of a
caller and a server in which no call of the kernel fails, however little each of them moves:
either `tcp_rpc` has returned true with the response to this command, or there is a next step in
which bytes change hands; and they change hands at most twice for each byte of the request and
of the longest response. -/
theorem rpc_returns (s₀ : σ) (cmd : List Bytes) (henc : encodeRequest cmd ≠ []) (evs : List (NetEvent σ))
    (hworks : Net.worksAlong h ⟨tcpRpc true cmd, { state := s₀ }, [], []⟩ evs = true) :
    ∃ N, evs.foldlM (Net.step h) ⟨tcpRpc true cmd, { state := s₀ }, [], []⟩ = some N ∧
      Net.transfers h ⟨tcpRpc true cmd, { state := s₀ }, [], []⟩ evs ≤
        2 * ((encodeRequest cmd).length + 4 + kMaxMsg) ∧
      ((∃ s, N.session.calls = [(s, cmd)] ∧ N.rpc = .returned true (frameOf (h s cmd).2)) ∨ N.CanMove h) := by
  have hinv := Net.inv_start h s₀ true (encodeRequest cmd)
  have hstart : Net.Sound h (encodeRequest cmd) ⟨tcpRpc true cmd, { state := s₀ }, [], []⟩ := by
    refine ⟨hinv, ?_, rfl, Conn.settled_new⟩
    rw [tcpRpc_writing henc]
    exact henc
  obtain ⟨N, hrun, hN⟩ := hstart.run h hworks
  refine ⟨N, hrun, ?_, hN.moves h henc⟩
  have hcount := hinv.transfers_le h evs
  exact (Nat.le_add_left _ _).trans hcount

/-- A call that is half way: the request came in two pieces, and a part of the response is
written. -/
def halfWay : List (NetEvent Nat) :=
  [.caller (.count 5), .server (.poll ⟨true, false, false, .data (List.replicate 3 0), .again, .again⟩),
    .caller .eintr, .caller (.count 99),
    .server (.poll ⟨true, false, false, .data (List.replicate 99 0), .wrote 3, .again⟩), .caller (.count 2)]

theorem rpc_returns_half : encodeRequest [bytes "get", [1]] ≠ [] ∧
    Net.worksAlong countingHandler ⟨tcpRpc true [bytes "get", [1]], { state := 6 }, [], []⟩ halfWay = true ∧
    ∃ N, halfWay.foldlM (Net.step countingHandler) ⟨tcpRpc true [bytes "get", [1]], { state := 6 }, [], []⟩ =
        some N ∧
      N.rpc = .header [1, 0] 2 ∧ N.CanMove countingHandler := by
  have henc : encodeRequest [bytes "get", [1]] ≠ [] := by decide
  have hworks : Net.worksAlong countingHandler ⟨tcpRpc true [bytes "get", [1]], { state := 6 }, [], []⟩
      halfWay = true := by decide +kernel
  obtain ⟨N, hrun, -, hend⟩ := rpc_returns countingHandler 6 [bytes "get", [1]] henc halfWay hworks
  have hrpc : N.rpc = .header [1, 0] 2 := by
    have hmap := congrArg (Option.map Net.rpc) hrun
    exact Option.some.inj (hmap.symm.trans (by decide +kernel))
  refine ⟨henc, hworks, N, hrun, hrpc, hend.resolve_left ?_⟩
  rintro ⟨s, -, hret⟩
  rw [hrpc] at hret
  cases hret

end ApexDB
