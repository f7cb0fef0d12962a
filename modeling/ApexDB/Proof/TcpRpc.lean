import ApexDB.TcpRpc
import ApexDB.Proxy
import ApexDB.Proof.ServerLoop

/-!
# A remote call, end to end

The caller knows nothing about the server but the bytes it gets, and the server nothing about
the caller. What ties them together is that a wire keeps its bytes in order: what the server
received is the front of the request, and what the caller holds is the front of what the server
wrote (`Net.Inv`). The front of a request has no request in it but itself (`items_of_front`), so
there is at most one call; and the front of a response that is as long as its own header says is
the response (`front_of_frame`).

Nothing is assumed about when the two sides run or how many bytes a call moves, and any call may
fail. So this is a statement of safety; that the call comes back when nothing fails is in
`Proof/RpcReturns.lean`.
-/

set_option autoImplicit false

namespace ApexDB

open Lib

variable {σ : Type} (h : Handler σ)

/-! ## 1. The front of a request, the front of a response

Frames say how long they are, in their first four bytes. A front that is shorter than four bytes
says nothing yet, and both readers wait for more.
-/

theorem cutRequest_encode {cmd : List Bytes} (hne : encodeRequest cmd ≠ []) :
    cutRequest (encodeRequest cmd) = .item cmd [] := by
  rw [encodeRequest_eq] at hne ⊢
  by_cases hok : cmd.length ≤ kMaxArgs ∧ (requestBody cmd).length ≤ kMaxMsg
  · rw [if_pos hok]
    generalize hb : requestBody cmd = body at hok
    have hlen : ofLe (le 4 body.length) = body.length :=
      ofLe_le_of_lt (by have := hok.2; unfold kMaxMsg at this; omega)
    have htake : (le 4 body.length ++ body).take 4 = le 4 body.length :=
      List.take_left' (length_le 4 _)
    have hdrop : (le 4 body.length ++ body).drop 4 = body := List.drop_left' (length_le 4 _)
    have hparse : parseReq body = some cmd := parseReq_iff.mpr ⟨hb.symm, hok.2, hok.1⟩
    unfold cutRequest
    rw [htake, hdrop, hlen, if_neg (by rw [List.length_append, length_le]; omega),
      if_neg (by omega), if_neg (by rw [List.length_append, length_le]; omega), List.take_length, hparse]
    simp [length_le]
  · rw [if_neg hok] at hne
    exact absurd rfl hne

/-- **The front of a request holds no request, or is all of it.** -/
theorem items_of_front {cmd : List Bytes} {x y : Bytes} (hx : encodeRequest cmd = x ++ y) :
    (requestCutter.drain x).items = [] ∨ (requestCutter.drain x).items = [cmd] := by
  cases hc : requestCutter.cut x with
  | more =>
    rw [Cutter.drain_more hc]
    exact .inl rfl
  | bad =>
    rw [Cutter.drain_bad hc]
    exact .inl rfl
  | item c rest =>
    have hne : encodeRequest cmd ≠ [] := by
      intro he
      have hlt := requestCutter.shrinks hc
      rw [(List.append_eq_nil_iff.mp (hx.symm.trans he)).1] at hlt
      exact absurd hlt (Nat.not_lt_zero _)
    have hcut : Cut.item cmd [] = .item c (rest ++ y) :=
      (cutRequest_encode hne).symm.trans (hx ▸ requestCutter.item_append hc y)
    injection hcut with hcmd hrest
    rw [Cutter.drain_item hc, (List.append_eq_nil_iff.mp hrest.symm).1, drain_nil, hcmd]
    exact .inr rfl

/-- So many bytes of a response are here, and this many are to come. -/
def Framed (out : Bytes) (n : Nat) : Prop :=
  4 ≤ out.length ∧ out.length + n = 4 + ofLe (out.take 4)

theorem length_frameOf (b : Bytes) : (frameOf b).length = 4 + (bodyOf b).length := by
  rw [frameOf, List.length_append, length_le]

theorem ofLe_take_frameOf (b : Bytes) : ofLe ((frameOf b).take 4) = (bodyOf b).length := by
  have hmax := length_bodyOf b
  rw [frameOf, List.take_left' (length_le 4 _), ofLe_le_of_lt (by unfold kMaxMsg at hmax; omega)]

/-- **The front of a response that is as long as it says is the response.** -/
theorem front_of_frame {b out y : Bytes} (hout : frameOf b = out ++ y) (hf : Framed out 0) :
    out = frameOf b := by
  have hlen := congrArg List.length hout
  rw [length_frameOf, List.length_append, ← ofLe_take_frameOf, hout,
    List.take_append_of_le_length hf.1] at hlen
  have hy : y = [] := List.length_eq_zero_iff.mp (by have := hf.2; omega)
  rw [hout, hy, List.append_nil]

theorem extractResponseBody_frameOf (b : Bytes) :
    extractResponseBody (frameOf b) = some (bodyOf b) := by
  unfold extractResponseBody
  rw [ofLe_take_frameOf, length_frameOf, if_neg (by omega)]
  simp only [Nat.add_sub_cancel_left, ne_eq, not_true_eq_false, if_false]
  rw [frameOf, List.drop_left' (length_le 4 _), List.take_length]

/-! ## 2. One step of the caller

The caller is a machine with one state for each of its loops. `Unsent` and `Took` read off such
a state what is still to be sent and what was read.
-/

/-- What the caller still has to send; a caller that gave up may have kept anything. -/
def Rpc.Unsent (left : Bytes) : Rpc → Prop
  | .writing buf => left = buf
  | .header _ _ | .body _ _ | .returned true _ => left = []
  | .returned false _ => True

def Rpc.Took (taken : Bytes) : Rpc → Prop
  | .writing _ => taken = []
  | .header hdr n => taken = hdr ∧ hdr.length + n = 4
  | .body out n => taken = out ∧ Framed out n
  | .returned true out => taken = out ∧ Framed out 0
  | .returned false _ => True

/-- `write_full` sends the front of what is left. -/
theorem writeFull_spec (rv : Rv) (buf : Bytes) : ∃ sent left, buf = sent ++ left ∧
    (writeFull rv buf = (.again left, sent) ∨ writeFull rv buf = (.done false, sent) ∨
      (left = [] ∧ writeFull rv buf = (.done true, sent))) := by
  cases rv with
  | eintr => exact ⟨[], buf, rfl, .inl rfl⟩
  | error => exact ⟨[], buf, rfl, .inr (.inl rfl)⟩
  | count n =>
    by_cases hempty : (buf.take n).isEmpty
    · exact ⟨[], buf, rfl, .inr (.inl (by simp only [writeFull, if_pos hempty]))⟩
    have hsplit := List.prefix_iff_eq_append.mp (List.take_prefix n buf)
    refine ⟨buf.take n, buf.drop (buf.take n).length, hsplit.symm, ?_⟩
    by_cases hall : (buf.take n).length = buf.length
    · refine .inr (.inr ⟨?_, by simp only [writeFull, if_neg hempty, if_pos hall]⟩)
      rw [hall, List.drop_length]
    · exact .inl (by simp only [writeFull, if_neg hempty, if_neg hall])

/-- `read_full` moves the front of the wire behind its buffer. -/
theorem readFull_spec (rv : Rv) (wire buf : Bytes) (n : Nat) : ∃ chunk rest n', wire = chunk ++ rest ∧
    (readFull rv wire buf n = (.done none, rest) ∨ n = chunk.length + n' ∧
      (readFull rv wire buf n = (.again (buf ++ chunk, n'), rest) ∨
        n' = 0 ∧ readFull rv wire buf n = (.done (some (buf ++ chunk)), rest))) := by
  cases rv with
  | eintr => exact ⟨[], wire, n, rfl, .inr ⟨by simp, .inl (by simp [readFull])⟩⟩
  | error => exact ⟨[], wire, n, rfl, .inl rfl⟩
  | count k =>
    by_cases hempty : (wire.take (min k n)).isEmpty
    · exact ⟨[], wire, n, rfl, .inl (by simp only [readFull, if_pos hempty])⟩
    have hsplit := List.prefix_iff_eq_append.mp (List.take_prefix (min k n) wire)
    have hle : (wire.take (min k n)).length ≤ n := by
      rw [List.length_take]
      omega
    refine ⟨_, _, n - (wire.take (min k n)).length, hsplit.symm, .inr ⟨by omega, ?_⟩⟩
    by_cases hall : (wire.take (min k n)).length = n
    · exact .inr ⟨by omega, by simp only [readFull, if_neg hempty, if_pos hall]⟩
    · exact .inl (by simp only [readFull, if_neg hempty, if_neg hall])

theorem Rpc.readBody_spec (hdr : Bytes) (h4 : hdr.length = 4) :
    (Rpc.readBody hdr).Unsent [] ∧ (Rpc.readBody hdr).Took hdr := by
  have htake : hdr.take 4 = hdr := List.take_of_length_le (by omega)
  unfold Rpc.readBody
  dsimp only
  split
  · exact ⟨trivial, trivial⟩
  split
  · exact ⟨rfl, rfl, by omega, by rw [htake]; omega⟩
  · exact ⟨rfl, rfl, by omega, by rw [htake, h4]⟩

/-- **A step of the caller**: what it sends comes off what it had to send, and what it takes off
the wire joins what it read. -/
theorem Rpc.step_spec (rv : Rv) (wire : Bytes) {rpc : Rpc} {left taken : Bytes}
    (hl : rpc.Unsent left) (ht : rpc.Took taken) :
    ∃ rpc' sent rest left' chunk, rpc.step rv wire = (rpc', sent, rest) ∧
      left = sent ++ left' ∧ rpc'.Unsent left' ∧ wire = chunk ++ rest ∧ rpc'.Took (taken ++ chunk) := by
  cases rpc with
  | writing buf =>
    obtain rfl : left = buf := hl
    obtain rfl : taken = [] := ht
    obtain ⟨sent, left', hsplit, hw | hw | ⟨rfl, hw⟩⟩ := writeFull_spec rv left
    · exact ⟨.writing left', sent, wire, left', [], by rw [Rpc.step, hw], hsplit, rfl, rfl, rfl⟩
    · exact ⟨.returned false [], sent, wire, left', [], by rw [Rpc.step, hw], hsplit, trivial, rfl,
        trivial⟩
    · exact ⟨.header [] 4, sent, wire, [], [], by rw [Rpc.step, hw], hsplit, rfl, rfl, rfl, rfl⟩
  | header hdr n =>
    obtain rfl : left = [] := hl
    obtain ⟨rfl, h4⟩ : taken = hdr ∧ hdr.length + n = 4 := ht
    obtain ⟨chunk, rest, n', hwire, hr | ⟨hn, hr | ⟨rfl, hr⟩⟩⟩ := readFull_spec rv wire taken n
    · exact ⟨.returned false [], [], rest, [], chunk, by rw [Rpc.step, hr], rfl, trivial, hwire, trivial⟩
    · refine ⟨.header (taken ++ chunk) n', [], rest, [], chunk, by rw [Rpc.step, hr], rfl, rfl, hwire, rfl, ?_⟩
      rw [List.length_append]
      omega
    · have hbody := Rpc.readBody_spec (taken ++ chunk) (by rw [List.length_append]; omega)
      exact ⟨.readBody (taken ++ chunk), [], rest, [], chunk, by rw [Rpc.step, hr], rfl, hbody.1, hwire,
        hbody.2⟩
  | body out n =>
    obtain rfl : left = [] := hl
    obtain ⟨rfl, h4, hlen⟩ : taken = out ∧ Framed out n := ht
    have hframed : ∀ chunk n', n = List.length chunk + n' → Framed (taken ++ chunk) n' := by
      intro chunk n' hn
      refine ⟨by rw [List.length_append]; omega, ?_⟩
      rw [List.length_append, List.take_append_of_le_length h4]
      omega
    obtain ⟨chunk, rest, n', hwire, hr | ⟨hn, hr | ⟨rfl, hr⟩⟩⟩ := readFull_spec rv wire taken n
    · exact ⟨.returned false _, [], rest, [], chunk, by rw [Rpc.step, hr], rfl, trivial, hwire, trivial⟩
    · exact ⟨.body (taken ++ chunk) n', [], rest, [], chunk, by rw [Rpc.step, hr], rfl, rfl, hwire, rfl,
        hframed _ _ hn⟩
    · exact ⟨.returned true (taken ++ chunk), [], rest, [], chunk, by rw [Rpc.step, hr], rfl, rfl, hwire,
        rfl, hframed _ _ hn⟩
  | returned result out =>
    exact ⟨.returned result out, [], wire, left, [], rfl, rfl, hl, rfl, by rwa [List.append_nil]⟩

/-! ## 3. The two sides together

In each direction what one side has sent is what the other side has received, followed by what
is on the wire. A step of either side moves a piece from one of these places to the next, and
leaves the whole as it is.
-/

/-- **The wires keep the bytes in order**: what the server has received, what is on the wire and
what is not sent yet make up the request, and what the caller has read and what is on the wire
make up what the server has written. -/
structure Net.Inv (request : Bytes) (N : Net σ) : Prop where
  session : N.session.Inv h
  sends : ∃ left, request = N.session.received ++ (N.toServer ++ left) ∧ N.rpc.Unsent left
  reads : ∃ taken, N.session.written = taken ++ N.toCaller ∧ N.rpc.Took taken

theorem tcpRpcRaw_spec (connected : Bool) (request : Buffer) :
    (tcpRpcRaw connected request).Unsent request ∧ (tcpRpcRaw connected request).Took [] := by
  unfold tcpRpcRaw
  split
  · exact ⟨trivial, trivial⟩
  split
  · exact ⟨rfl, rfl⟩
  · exact ⟨trivial, trivial⟩

theorem Net.inv_start (s : σ) (connected : Bool) (request : Buffer) :
    Net.Inv h request ⟨tcpRpcRaw connected request, { state := s }, [], []⟩ where
  session := Session.inv_start h s
  sends := ⟨request, rfl, (tcpRpcRaw_spec connected request).1⟩
  reads := ⟨[], rfl, (tcpRpcRaw_spec connected request).2⟩

/-- What a session has received and written only grows, the first by what `read` returned. -/
theorem Session.step_grows {S S' : Session σ} {ev : LoopEvent σ} (hstep : S.step h ev = some S') :
    (S'.received = S.received ∨ ∃ ready, ev = .poll ready ∧ S'.received = S.received ++ ready.chunk) ∧
      ∃ sent, S'.written = S.written ++ sent := by
  cases ev with
  | poll ready =>
    rw [Session.step] at hstep
    split at hstep
    · simp only [Option.bind_eq_bind, Option.bind_eq_some_iff] at hstep
      obtain ⟨⟨s, conn, sent, destroyed⟩, -, hS'⟩ := hstep
      cases hS'
      exact ⟨.inr ⟨ready, rfl, rfl⟩, sent, rfl⟩
    · cases hstep
      exact ⟨.inl rfl, [], (List.append_nil _).symm⟩
  | elsewhere s =>
    cases hstep
    exact ⟨.inl rfl, [], (List.append_nil _).symm⟩
  | timeout =>
    cases hstep
    exact ⟨.inl rfl, [], (List.append_nil _).symm⟩

theorem chunk_ofWire (wire : Bytes) (r : ReadResult) : (r.ofWire wire).chunk <+: wire := by
  cases r with
  | data chunk =>
    rw [ReadResult.ofWire]
    split
    · exact List.nil_prefix
    · exact List.take_prefix _ _
  | eof => exact List.nil_prefix
  | again => exact List.nil_prefix
  | error => exact List.nil_prefix

/-- A server that reads from the wire receives the front of it. -/
theorem Session.step_ofWire {S S' : Session σ} {ev : LoopEvent σ} {wire : Bytes}
    (hstep : S.step h (ev.ofWire wire) = some S') :
    ∃ chunk rest, wire = chunk ++ rest ∧ S'.received = S.received ++ chunk := by
  rcases (Session.step_grows h hstep).1 with hr | ⟨ready, hev, hr⟩
  · exact ⟨[], wire, rfl, by rw [hr, List.append_nil]⟩
  have hchunk : ready.chunk <+: wire := by
    cases ev with
    | poll ready' =>
      injection hev with hev
      subst hev
      unfold Ready.chunk
      dsimp only
      split
      · exact chunk_ofWire wire ready'.read
      · exact List.nil_prefix
    | elsewhere s => cases hev
    | timeout => cases hev
  obtain ⟨rest, hrest⟩ := hchunk
  exact ⟨ready.chunk, rest, hrest.symm, hr⟩

/-- **Either side keeps the invariant**, whatever its calls return. -/
theorem Net.step_inv {request : Bytes} {N : Net σ} (hN : N.Inv h request) (ev : NetEvent σ) :
    ∃ N', N.step h ev = some N' ∧ N'.Inv h request := by
  obtain ⟨left, hreq, hleft⟩ := hN.sends
  obtain ⟨taken, hwritten, htaken⟩ := hN.reads
  cases ev with
  | caller rv =>
    obtain ⟨rpc', sent, rest, left', chunk, hstep, rfl, hleft', hwire, htaken'⟩ :=
      Rpc.step_spec rv N.toCaller hleft htaken
    refine ⟨{ N with rpc := rpc', toServer := N.toServer ++ sent, toCaller := rest },
      by rw [Net.step, hstep], hN.session, ⟨left', ?_, hleft'⟩, ⟨taken ++ chunk, ?_, htaken'⟩⟩
    · rw [hreq, List.append_assoc]
    · rw [hwritten, hwire, List.append_assoc]
  | server ev =>
    obtain ⟨S', hstep, hS'⟩ := Session.step_inv h hN.session (ev.ofWire N.toServer)
    obtain ⟨chunk, rest, hwire, hreceived⟩ := Session.step_ofWire h hstep
    obtain ⟨-, sent, hsent⟩ := Session.step_grows h hstep
    refine ⟨⟨N.rpc, S', rest, N.toCaller ++ sent⟩, ?_, hS', ⟨left, ?_, hleft⟩, ⟨taken, ?_, htaken⟩⟩
    · rw [Net.step, hstep]
      simp only [Option.bind_eq_bind, Option.bind_some, hsent, hreceived, hwire, List.drop_left,
        List.length_append, Nat.add_sub_cancel_left]
      rfl
    · rw [hreq, hreceived, hwire, List.append_assoc, List.append_assoc]
    · rw [hsent, hwritten, List.append_assoc]

theorem Net.run_inv (s : σ) (connected : Bool) (request : Buffer) (evs : List (NetEvent σ)) :
    ∃ N, evs.foldlM (Net.step h) ⟨tcpRpcRaw connected request, { state := s }, [], []⟩ = some N ∧
      N.Inv h request :=
  foldlM_inv (Net.Inv h request) (fun _ => True) (fun _ ev _ hN => Net.step_inv h hN ev) evs _
    (fun _ _ => trivial) (Net.inv_start h s connected request)

theorem Net.step_returned {N N' : Net σ} {ev : NetEvent σ} {result : Bool} {out : Buffer}
    (hstep : N.step h ev = some N') (hret : N.rpc = .returned result out) :
    N'.rpc = .returned result out := by
  cases ev with
  | caller rv =>
    rw [Net.step, hret] at hstep
    cases hstep
    rfl
  | server ev =>
    simp only [Net.step, Option.bind_eq_bind, Option.bind_eq_some_iff] at hstep
    obtain ⟨S, -, hN'⟩ := hstep
    cases hN'
    exact hret

/-- When the caller has returned with true, there was one call, and its response is what came
back. -/
theorem Net.Inv.returned {cmd : List Bytes} {N : Net σ} (hN : N.Inv h (encodeRequest cmd))
    {out : Buffer} (hret : N.rpc = .returned true out) :
    ∃ s, N.session.calls = [(s, cmd)] ∧ out = frameOf (h s cmd).2 := by
  obtain ⟨left, hreq, -⟩ := hN.sends
  obtain ⟨taken, hwritten, htaken⟩ := hN.reads
  rw [hret] at htaken
  obtain ⟨rfl, hframed⟩ : taken = out ∧ Framed out 0 := htaken
  have hreplies := hN.session.replies
  rw [hwritten, List.append_assoc] at hreplies
  rcases items_of_front hreq with hitems | hitems
  · -- without a call nothing is written, and four bytes were read
    rw [← hN.session.calls, List.map_eq_nil_iff] at hitems
    rw [hitems] at hreplies
    have hnil := (List.append_eq_nil_iff.mp hreplies).1
    rw [hnil] at hframed
    exact absurd hframed.1 (by simp)
  · rw [← hN.session.calls] at hitems
    obtain ⟨⟨s, c⟩, hcalls, rfl⟩ := List.map_eq_singleton_iff.mp hitems
    rw [hcalls] at hreplies
    refine ⟨s, hcalls, front_of_frame (y := N.toCaller ++ N.session.conn.outgoing) ?_ hframed⟩
    simpa [response] using hreplies.symm

/-- **A remote call that returns true was one call.** For every command, in every interleaving
of a caller and a server whose calls move as many bytes as they like: when `tcp_rpc` has
returned true, the handler was called once on this connection, with this very command; the
response is the frame of that call, and the proxy gets the body out of it. A command that cannot
be encoded is not sent at all. -/
theorem rpc_end_to_end (s₀ : σ) (connected : Bool) (cmd : List Bytes) (evs : List (NetEvent σ)) :
    ∃ N, evs.foldlM (Net.step h) ⟨tcpRpc connected cmd, { state := s₀ }, [], []⟩ = some N ∧
      (∀ out, N.rpc = .returned true out → ∃ s, N.session.calls = [(s, cmd)] ∧
        out = frameOf (h s cmd).2 ∧ extractResponseBody out = some (bodyOf (h s cmd).2)) ∧
      (encodeRequest cmd = [] → N.rpc = .returned false [] ∧ N.toServer = [] ∧
        N.session.received = [] ∧ N.session.calls = []) := by
  obtain ⟨N, hrun, hN⟩ := Net.run_inv h s₀ connected (encodeRequest cmd) evs
  refine ⟨N, hrun, fun out hret => ?_, fun hempty => ?_⟩
  · obtain ⟨s, hcalls, rfl⟩ := hN.returned h hret
    exact ⟨s, hcalls, rfl, extractResponseBody_frameOf _⟩
  · have hret : N.rpc = .returned false [] := by
      have hstart : tcpRpcRaw connected (encodeRequest cmd) = .returned false [] := by
        rw [tcpRpcRaw, hempty]
        rfl
      obtain ⟨N', hrun', hret⟩ := foldlM_inv
        (fun N : Net σ => N.Inv h (encodeRequest cmd) ∧ N.rpc = .returned false []) (fun _ => True)
        (fun N ev _ hN => by
          obtain ⟨N', hstep, hN'⟩ := Net.step_inv h hN.1 ev
          exact ⟨N', hstep, hN', Net.step_returned h hstep hN.2⟩)
        evs _ (fun _ _ => trivial) ⟨Net.inv_start h s₀ connected (encodeRequest cmd), hstart⟩
      obtain rfl : N' = N := Option.some.inj (hrun'.symm.trans hrun)
      exact hret.2
    obtain ⟨left, hreq, -⟩ := hN.sends
    rw [hempty] at hreq
    obtain ⟨hrec, hrest⟩ := List.append_eq_nil_iff.mp hreq.symm
    have hcalls := hN.session.calls
    rw [hrec, drain_nil, List.map_eq_nil_iff] at hcalls
    exact ⟨hret, (List.append_eq_nil_iff.mp hrest).1, hrec, hcalls⟩

/-- The call does come back, here through short transfers on both sides and an interrupted one.
-/
example :
    let poll (n k : Nat) : NetEvent Nat :=
      .server (.poll ⟨true, true, false, .data (List.replicate n 0), .wrote k, .wrote k⟩)
    ([.caller (.count 5), poll 3 1, .caller .eintr, .caller (.count 99), poll 99 3, .caller (.count 9),
      poll 0 2, .caller (.count 2), .caller .eintr, poll 0 9, .caller (.count 9),
      .caller (.count 9)].foldlM (Net.step countingHandler)
      ⟨tcpRpc true [bytes "get", [1]], { state := 6 }, [], []⟩).map (fun N => (N.rpc, N.session.calls)) =
    some (.returned true (frameOf [1]), [(6, [bytes "get", [1]])]) := by
  decide +kernel

end ApexDB
