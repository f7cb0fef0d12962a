import ApexDB.Client
import ApexDB.Server
import ApexDB.Spec.Frames
import ApexDB.Proof.Codec
import ApexDB.Proof.StoreRuns

/-!
# Every request gets one well-formed response

Three facts meet here. `response_end` frames whatever the handler wrote (`responseEnd_spec`).
The decoder of the client takes exactly the bytes of a value, whatever follows them
(`printResponse_encode`). And a command of the store writes exactly one value, which is an error
or short whenever the command changed something (`refCommand_effect`), so a failed request, the
one that was too big included, changed nothing.
-/

set_option autoImplicit false

namespace ApexDB

open Lib

/-! ## 1. The decoder

The client reads a response by recursion, with a position in the buffer and a number of levels
that are left. Here it is read back as what was written, for every value that does not nest too
deep.
-/

theorem toInt32_of_lt {n : Nat} (h : n < 2 ^ 31) : toInt32 n = n := by
  unfold toInt32
  rw [Nat.mod_eq_of_lt (by omega), if_pos h]

theorem u32At_append (a b : Bytes) {n : Nat} (hn : n < 2 ^ 32) :
    u32At (a ++ (le 4 n ++ b)) a.length = some n := by
  have hlen : a.length + 4 ≤ (a ++ (le 4 n ++ b)).length := by
    simp only [List.length_append, length_le]
    omega
  rw [u32At, if_pos hlen, List.drop_left, List.take_left' (length_le 4 n),
    ofLe_le_of_lt (by simpa using hn)]

theorem printText_append (a s rest : Bytes) (h : a.length + 4 + s.length < 2 ^ 31) :
    printText (a ++ (le 4 s.length ++ (s ++ rest))) a.length =
      some ((a.length + 4 + s.length : Nat) : Int) := by
  have hlen : (a ++ (le 4 s.length ++ (s ++ rest))).length =
      a.length + 4 + s.length + rest.length := by
    simp only [List.length_append, length_le]
    omega
  rw [printText, if_neg (by omega), u32At_append a _ (by omega), hlen]
  simp only [Option.bind_eq_bind, Option.bind_some]
  rw [if_neg (by omega), toInt32_of_lt h]
  rfl

theorem printNumber_append (tag : UInt8) (n : Nat) (rest : Bytes) :
    printNumber (tag :: (le 8 n ++ rest)) = some ((8 + 1 : Nat) : Int) := by
  have hlen : ¬(tag :: (le 8 n ++ rest)).length < 1 + 8 := by
    rw [List.length_cons, List.length_append, length_le]
    omega
  rw [printNumber, if_neg hlen]
  rfl

mutual

/-- **The decoder takes exactly the bytes of a value**, whatever follows them. -/
theorem printResponse_encode : ∀ (v : Value) (levels : Nat) (rest : Bytes), v.nesting < levels →
    v.encode.length < 2 ^ 31 →
    printResponse levels (v.encode ++ rest) = some (v.encode.length : Int)
  | .nil, levels + 1, rest, _, _ => rfl
  | .int n, levels + 1, rest, _, _ => by
    have hnum := printNumber_append Tag.int.byte (n % 2 ^ 64).toNat rest
    simp only [Value.encode, List.cons_append, printResponse, List.length_cons, length_le]
    exact hnum
  | .dbl bits, levels + 1, rest, _, _ => by
    have hnum := printNumber_append Tag.dbl.byte bits rest
    simp only [Value.encode, List.cons_append, printResponse, List.length_cons, length_le]
    exact hnum
  | .err code msg, levels + 1, rest, _, h => by
    have hlen : (Value.err code msg).encode.length = 5 + 4 + msg.length := by
      simp [Value.encode, length_le]
      omega
    have htext := printText_append (Tag.err.byte :: le 4 code) msg rest
      (by simp only [List.length_cons, length_le]; omega)
    rw [hlen]
    simp only [List.length_cons, length_le, List.cons_append] at htext
    simp only [Value.encode, List.cons_append, List.append_assoc, printResponse]
    exact htext
  | .str s, levels + 1, rest, _, h => by
    have hlen : (Value.str s).encode.length = 1 + 4 + s.length := by
      simp [Value.encode, length_le]
      omega
    have htext := printText_append [Tag.str.byte] s rest
      (by simp only [List.length_cons, List.length_nil]; omega)
    rw [hlen]
    simp only [List.length_cons, List.length_nil, List.cons_append, List.nil_append] at htext
    simp only [Value.encode, List.cons_append, List.append_assoc, printResponse]
    exact htext
  | .arr vs, levels + 1, rest, hd, h => by
    have hcount := Value.length_le_encodeAll vs
    have hlen : (Value.arr vs).encode.length = 5 + (Value.encodeAll vs).length := by
      simp [Value.encode, length_le]
      omega
    rw [hlen] at h
    have hnest : Value.nestingAll vs ≤ levels := Nat.le_of_lt_succ hd
    have hu := u32At_append [Tag.arr.byte] (Value.encodeAll vs ++ rest)
      (show vs.length < 2 ^ 32 by omega)
    have hel := printElements_encodeAll vs levels (Tag.arr.byte :: le 4 vs.length) rest hnest
      (by simp only [List.length_cons, length_le]; omega)
    simp only [List.length_cons, List.length_nil, length_le, List.cons_append,
      List.nil_append] at hu hel
    have hbig : ¬(Tag.arr.byte :: (le 4 vs.length ++ (Value.encodeAll vs ++ rest))).length < 1 + 4 := by
      rw [List.length_cons, List.length_append, length_le]
      omega
    rw [hlen]
    simp only [Value.encode, List.cons_append, List.append_assoc, printResponse, if_neg hbig, hu,
      Option.bind_eq_bind, Option.bind_some]
    exact hel

/-- The loop over the elements, behind a head of any length. -/
theorem printElements_encodeAll : ∀ (vs : List Value) (levels : Nat) (a rest : Bytes),
    Value.nestingAll vs ≤ levels → a.length + (Value.encodeAll vs).length < 2 ^ 31 →
    printElements (printResponse levels) (a ++ (Value.encodeAll vs ++ rest)) vs.length a.length =
      some ((a.length + (Value.encodeAll vs).length : Nat) : Int)
  | [], levels, a, rest, _, h => by
    rw [Value.encodeAll, List.length_nil, Nat.add_zero] at h
    rw [List.length_nil, printElements, toInt32_of_lt h]
    rfl
  | v :: vs, levels, a, rest, hd, h => by
    rw [Value.nestingAll] at hd
    rw [Value.encodeAll, List.length_append] at h
    have hv := printResponse_encode v levels (Value.encodeAll vs ++ rest) (by omega) (by omega)
    have hvs := printElements_encodeAll vs levels (a ++ v.encode) rest (by omega)
      (by rw [List.length_append]; omega)
    rw [List.length_append, List.append_assoc] at hvs
    have hge : ¬(a ++ (v.encode ++ (Value.encodeAll vs ++ rest))).length < a.length := by
      rw [List.length_append]
      omega
    rw [Value.encodeAll, List.append_assoc, List.length_cons, printElements, if_neg hge,
      List.drop_left, hv]
    simp only [Option.bind_eq_bind, Option.bind_some]
    rw [if_neg (by omega), Int.toNat_natCast, hvs, List.length_append, Nat.add_assoc]

end

/-! ## 2. The frame

`response_begin` leaves four bytes for the length and `response_end` writes it, unless the
response is too long; then everything after the header is replaced by an error.
-/

theorem responseEnd_spec (out b : Bytes) :
    responseEnd (out ++ (le 4 0 ++ b)) out.length = some (out ++ frameOf b) := by
  have hsize : ∀ b, responseSize (out ++ (le 4 0 ++ b)) out.length = b.length := by
    intro b
    simp only [responseSize, List.length_append, length_le]
    omega
  have htake : (out ++ (le 4 0 ++ b)).take (out.length + 4) = out ++ le 4 0 := by
    rw [← List.append_assoc]
    exact List.take_left' (by rw [List.length_append, length_le])
  unfold responseEnd frameOf bodyOf
  rw [hsize, htake, outErr_eq]
  split
  · dsimp only
    rw [List.append_assoc, hsize]
    exact bufPatch_le _ _ _ _
  · dsimp only
    rw [hsize]
    exact bufPatch_le _ _ _ _

/-- **What the handler writes is framed behind what the buffer held.** -/
theorem respond_spec {σ : Type} {onRequest : RequestHandler σ} {s s' : σ} {cmd : List Bytes}
    (out : Bytes) {b : Bytes} (h : onRequest s cmd (out ++ le 4 0) = some (s', out ++ le 4 0 ++ b)) :
    respond onRequest s cmd out = some (s', out ++ frameOf b) := by
  have hend := responseEnd_spec out b
  rw [← List.append_assoc] at hend
  simp only [respond, responseBegin, h, hend, Option.bind_eq_bind, Option.bind_some]
  rfl

/-- The value that is sent for a value: itself, or the error for a response that is too big. -/
def sent (v : Value) : Value := if kMaxMsg < v.encode.length then tooBig else v

theorem bodyOf_encode (v : Value) : bodyOf v.encode = (sent v).encode := by
  unfold bodyOf sent
  split <;> rfl

/-! ## 3. The values of the store

By the reference: what a command answers and what it changes are read off one definition, so
that the two can be related. Only arrays of strings and of members occur, so the nesting is one
level at most.
-/

theorem depthAll_eq_zero {vs : List Value} (h : ∀ v ∈ vs, v.depth = 0) : Value.depthAll vs = 0 := by
  induction vs with
  | nil => rfl
  | cons v vs ih =>
    rw [Value.depthAll, h v List.mem_cons_self, ih fun w hw => h w (List.mem_cons_of_mem _ hw)]
    rfl

theorem depth_memberValues (zs : List ZNode) : (Value.arr (memberValues zs)).depth = 1 := by
  rw [Value.depth, depthAll_eq_zero]
  intro v hv
  obtain ⟨z, -, hv⟩ := List.mem_flatMap.mp hv
  simp only [List.mem_cons, List.not_mem_nil, or_false] at hv
  rcases hv with rfl | rfl <;> rfl

theorem depth_strs (l : List Bytes) : (Value.arr (l.map .str)).depth = 1 := by
  rw [Value.depth, depthAll_eq_zero]
  intro v hv
  obtain ⟨s, -, rfl⟩ := List.mem_map.mp hv
  rfl

section Effect

variable {Z : Type} (R : Reading Z) (strtod : Bytes → StrtodResult) (clk : Nat) (m : RefStore Z)

/-- **A command changes nothing, or answers shortly and with no error.** -/
theorem refCommand_effect (cmd : Command) : (refCommand R strtod clk m cmd).1 = m ∨
    ∃ v, (refCommand R strtod clk m cmd).2 = .value v ∧ ¬v.IsErr ∧ v.encode.length ≤ 9 := by
  have hint : ∀ n, ¬(Value.int n).IsErr ∧ (Value.int n).encode.length ≤ 9 :=
    fun n => ⟨id, by simp [Value.encode, length_le]⟩
  cases cmd with
  | persist key =>
    simp only [refCommand]
    split
    · exact .inr ⟨_, rfl, hint _⟩
    · exact .inl rfl
  | incr key =>
    simp only [refCommand, refIncr]
    split
    · exact .inr ⟨_, rfl, hint _⟩
    · exact .inl rfl
    · split
      · exact .inl rfl
      · split
        · exact .inl rfl
        · exact .inr ⟨_, rfl, hint _⟩
  | set key val =>
    simp only [refCommand]
    split
    · exact .inl rfl
    · exact .inr ⟨_, rfl, id, by decide⟩
  | del key => exact .inr ⟨_, rfl, hint _⟩
  | pexpire key arg =>
    simp only [refCommand, refExpire]
    split
    · exact .inl rfl
    · split
      · exact .inl rfl
      · split <;> exact .inr ⟨_, rfl, hint _⟩
  | zadd key arg name =>
    simp only [refCommand, refZadd]
    split
    · exact .inl rfl
    · split
      · exact .inr ⟨_, rfl, hint _⟩
      · exact .inl rfl
      · exact .inr ⟨_, rfl, hint _⟩
  | zrem key name =>
    simp only [refCommand, refZrem]
    split
    · exact .inl rfl
    · exact .inl rfl
    · split
      · exact .inr ⟨_, rfl, hint _⟩
      · exact .inl rfl
  | _ => exact .inl rfl

end Effect

def Expected.Shallow : Expected → Prop
  | value v => v.depth ≤ 1
  | keys _ => True
  | valueIf p v => p ∧ v.depth ≤ 1

theorem Expected.Shallow.depth_le {x : Expected} {v : Value} (h : x.Shallow) (hv : x.Admits v) :
    v.depth ≤ 1 := by
  cases x with
  | value w => exact (show v = w from hv) ▸ h
  | keys ks =>
    obtain ⟨l, rfl, -⟩ := hv
    rw [depth_strs]
  | valueIf p w => exact (hv.1 h.1) ▸ h.2

theorem refCommand_shallow (strtod : Bytes → StrtodResult) (clk : Nat) (m : RefStore ZTree)
    (cmd : Command) : (refCommand treeReading strtod clk m cmd).2.Shallow := by
  have hleaf : ∀ v : Value, v.depth = 0 → (Expected.value v).Shallow := fun v hv => by
    rw [Expected.Shallow, hv]
    omega
  cases cmd with
  | get key =>
    simp only [refCommand]
    split <;> exact hleaf _ rfl
  | persist key =>
    simp only [refCommand]
    split <;> exact hleaf _ rfl
  | set key val =>
    simp only [refCommand]
    split <;> exact hleaf _ rfl
  | incr key =>
    simp only [refCommand, refIncr]
    repeat' split
    all_goals exact hleaf _ rfl
  | pexpire key arg =>
    simp only [refCommand, refExpire]
    repeat' split
    all_goals exact hleaf _ rfl
  | zadd key arg name =>
    simp only [refCommand, refZadd]
    repeat' split
    all_goals exact hleaf _ rfl
  | zrem key name =>
    simp only [refCommand, refZrem]
    repeat' split
    all_goals exact hleaf _ rfl
  | zscore key name =>
    simp only [refCommand, refZscore]
    repeat' split
    all_goals exact hleaf _ rfl
  | zquery key arg name offset limit =>
    simp only [refCommand, refZquery]
    repeat' split
    all_goals first
      | exact hleaf _ rfl
      | exact ⟨trivial, (depth_memberValues _).le⟩
      | exact (depth_memberValues []).le
  | keys => trivial
  | _ => exact hleaf _ rfl

/-! ## 4. Responses of the store

The value that the store wrote is one that the reference admits, and the bytes on the wire are
its frame.
-/

/-- **The response of the store to a request**: the frame of one value that is right for the
map. -/
theorem respond_store {Z : Type} {rel : ZTree → Z → Prop} {R : Reading Z} (hR : R.Sound rel)
    (strtod : Bytes → StrtodResult) {st : Store} {m : RefStore Z} (h : st.Models rel m)
    (now clk : Nat) (cmd : List Bytes) (out : Bytes) :
    ∃ st' v, execute strtod now clk cmd st (responseBegin out).1 =
        some (st', (responseBegin out).1 ++ v.encode) ∧
      respond (serverOnRequest strtod now clk) st cmd out = some (st', out ++ frameOf v.encode) ∧
      (refCommand R strtod clk (m.purge now) (dispatch cmd)).2.Admits v ∧
      st'.Models rel (refCommand R strtod clk (m.purge now) (dispatch cmd)).1 := by
  obtain ⟨st', v, hrun, hv, h'⟩ := execute_spec hR strtod h now clk cmd (responseBegin out).1
  exact ⟨st', v, hrun, respond_spec out hrun, hv, h'⟩

theorem depth_sent {v : Value} (h : v.depth ≤ 1) : (sent v).depth ≤ 1 := by
  unfold sent
  split
  · exact Nat.zero_le _
  · exact h

/-- **Every request to a reachable store appends exactly one well-formed response.** The value
`v` that `execute` wrote is what is sent, or the error in its place when it is over the limit;
the length in front is exact, no size or count inside has lost bits, and the client's decoder
takes exactly that many bytes. -/
theorem response_well_formed (strtod : Bytes → StrtodResult) (threads : Nat) (evs : List StoreEvent) :
    ∃ st outs, run (storeStep strtod) { threads := threads } evs = some (st, outs) ∧
      ∀ (now clk : Nat) (cmd : List Bytes) (out : Bytes), ∃ st' v v',
        execute strtod now clk cmd st (responseBegin out).1 =
          some (st', (responseBegin out).1 ++ v.encode) ∧
        respond (serverOnRequest strtod now clk) st cmd out =
          some (st', out ++ (le 4 v'.encode.length ++ v'.encode)) ∧
        v' = (if kMaxMsg < v.encode.length then tooBig else v) ∧ v'.encode.length ≤ kMaxMsg ∧
        v'.Exact ∧ printResponse kMaxDepth v'.encode = some (v'.encode.length : Int) := by
  obtain ⟨st, outs, m, hrun, h⟩ := store_run_models treeReading_sound strtod evs
    (Store.models_empty threads)
  refine ⟨st, outs, hrun, fun now clk cmd out => ?_⟩
  obtain ⟨st', v, hexec, hresp, hv, -⟩ := respond_store treeReading_sound strtod h now clk cmd out
  have hlen := length_bodyOf v.encode
  rw [bodyOf_encode] at hlen
  rw [frameOf, bodyOf_encode] at hresp
  have hmax : kMaxMsg < 2 ^ 31 := by decide
  have hdepth := depth_sent ((refCommand_shallow _ _ _ _).depth_le hv)
  have hnest := (Value.nesting_le_depth (sent v)).trans hdepth
  have hprint := printResponse_encode (sent v) kMaxDepth []
    (Nat.lt_of_le_of_lt hnest (by decide)) (by omega)
  rw [List.append_nil] at hprint
  exact ⟨st', v, sent v, hexec, hresp, rfl, hlen, Value.exact_of_length _ (by omega), hprint⟩

/-! ## 5. Failed requests

That a failed request has changed nothing needs a word on what can be observed: whatever is
asked afterwards, the replies are the same as without it, except that `keys` may list in another
order.
-/

/-- Two replies that say the same: equal, or the same strings in another order. -/
def SameReply (o o' : Bytes) : Prop :=
  o = o' ∨ ∃ l l' : List Bytes, l.Perm l' ∧ o = (Value.arr (l.map .str)).encode ∧
    o' = (Value.arr (l'.map .str)).encode

/-- Two right answers to one request say the same. -/
theorem Expected.Admits.same {x : Expected} {v v' : Value} (hx : x.Shallow) (h : x.Admits v)
    (h' : x.Admits v') : SameReply v.encode v'.encode := by
  cases x with
  | value w => exact .inl (by rw [show v = w from h, show v' = w from h'])
  | valueIf p w => exact .inl (by rw [h.1 hx.1, h'.1 hx.1])
  | keys ks =>
    obtain ⟨l, rfl, hn, hl⟩ := h
    obtain ⟨l', rfl, hn', hl'⟩ := h'
    refine .inr ⟨l, l', ?_, rfl, rfl⟩
    rw [List.perm_ext_iff_of_nodup hn hn']
    intro a
    rw [← List.mem_toFinset, ← List.mem_toFinset, hl, hl']

/-- **The reference decides every reply, up to the order of keys.** -/
theorem admits_same (strtod : Bytes → StrtodResult) : ∀ (evs : List StoreEvent) (s : RefState ZTree)
    (os os' : List Bytes), (refMachine treeReading strtod).Admits s evs os →
    (refMachine treeReading strtod).Admits s evs os' → List.Forall₂ SameReply os os' := by
  intro evs
  induction evs with
  | nil =>
    intro s os os' h h'
    match os, os', h, h' with
    | [], [], _, _ => exact .nil
  | cons ev evs ih =>
    intro s os os' h h'
    match os, os', h, h' with
    | o :: os, o' :: os', h, h' =>
      refine .cons ?_ (ih _ os os' h.2 h'.2)
      cases ev with
      | execute now clk cmd =>
        obtain ⟨v, rfl, hv⟩ := h.1
        obtain ⟨v', rfl, hv'⟩ := h'.1
        exact Expected.Admits.same (refCommand_shallow _ _ _ _) hv hv'
      | processTimers now clk => exact .inl (h.1.trans (Eq.symm h'.1))
      | work => exact .inl (h.1.trans (Eq.symm h'.1))

/-- An error that is sent was answered by a command that changed nothing. -/
theorem refCommand_of_sent_err {Z : Type} (R : Reading Z) (strtod : Bytes → StrtodResult) (clk : Nat)
    (m : RefStore Z) (cmd : Command) {v : Value}
    (hv : (refCommand R strtod clk m cmd).2.Admits v) (herr : (sent v).IsErr) :
    (refCommand R strtod clk m cmd).1 = m := by
  rcases refCommand_effect R strtod clk m cmd with h | ⟨w, hw, hne, hlen⟩
  · exact h
  · rw [hw] at hv
    obtain rfl : v = w := hv
    have hmax : 9 ≤ kMaxMsg := by decide
    rw [sent, if_neg (by omega)] at herr
    exact absurd herr hne

/-- **An error reply, of any code, leaves the contents as they are after the expiry of what is
due**, and no later reply can tell that the request was made. The contents are the one map the
store stands for. -/
theorem error_reply_keeps_contents (strtod : Bytes → StrtodResult) (threads : Nat)
    (evs : List StoreEvent) :
    ∃ st outs m, run (storeStep strtod) { threads := threads } evs = some (st, outs) ∧
      st.Models ScoresOf m ∧ (∀ m', st.Models ScoresOf m' → m' = m) ∧
      ∀ (now clk : Nat) (cmd : List Bytes) (out : Bytes), ∃ st' out',
        respond (serverOnRequest strtod now clk) st cmd out = some (st', out') ∧
        ((out'.drop (out.length + 4)).head? = some Tag.err.byte →
          st'.Models ScoresOf (m.purge now) ∧
          ∀ later, ClockFrom now later → ∃ st₁ os₁ st₂ os₂,
            run (storeStep strtod) st' later = some (st₁, os₁) ∧
            run (storeStep strtod) st later = some (st₂, os₂) ∧
            List.Forall₂ SameReply os₁ os₂) := by
  obtain ⟨st, outs, m, hrun, h⟩ := store_run_models mapReading_sound strtod evs
    (Store.models_empty threads)
  obtain ⟨st₀, outs₀, t, hrun₀, ht⟩ := store_run_models treeReading_sound strtod evs
    (Store.models_empty threads)
  obtain ⟨rfl, rfl⟩ : st₀ = st ∧ outs₀ = outs := by
    rw [hrun] at hrun₀
    cases hrun₀
    exact ⟨rfl, rfl⟩
  refine ⟨st₀, outs₀, m, hrun, h, fun m' hm' => h.unique hm', fun now clk cmd out => ?_⟩
  obtain ⟨st', v, hexec, hresp, hv, h'⟩ := respond_store mapReading_sound strtod h now clk cmd out
  obtain ⟨st'', v', hexec', hresp', hv', ht'⟩ :=
    respond_store treeReading_sound strtod ht now clk cmd out
  obtain ⟨rfl, hvv⟩ : st'' = st' ∧ v'.encode = v.encode := by
    rw [hexec'] at hexec
    simp only [Option.some.injEq, Prod.mk.injEq, List.append_cancel_left_eq] at hexec
    exact hexec
  refine ⟨st'', _, hresp, fun herr => ?_⟩
  have hdrop : (out ++ frameOf v.encode).drop (out.length + 4) = (sent v).encode := by
    rw [frameOf, ← List.append_assoc, bodyOf_encode]
    exact List.drop_left' (by rw [List.length_append, length_le])
  have herr' : (sent v').IsErr := by
    rw [← Value.head?_encode_iff, ← bodyOf_encode, hvv, bodyOf_encode, ← hdrop]
    exact herr
  rw [hdrop, Value.head?_encode_iff] at herr
  rw [refCommand_of_sent_err _ _ _ _ _ hv herr] at h'
  rw [refCommand_of_sent_err _ _ _ _ _ hv' herr'] at ht'
  refine ⟨h', fun later hlater => ?_⟩
  -- with and without the request, the store follows the same reference
  have follow : ∀ s : Store, s.Follows (· = ·) ⟨t, now⟩ → ∃ s' os,
      run (storeStep strtod) s later = some (s', os) ∧
      (refMachine treeReading strtod).Admits ⟨t, now⟩ later os := by
    intro s hs
    obtain ⟨s', os, hrun', hadm, -⟩ := (refMachine treeReading strtod).run_refines
      (R := Store.Follows (· = ·))
      (fun _ _ ev h hp => storeStep_refines treeReading_sound strtod h ev hp) later s ⟨t, now⟩ hs
      (ClockFrom.legal treeReading strtod (s := ⟨t, now⟩) hlater)
    exact ⟨s', os, hrun', hadm⟩
  obtain ⟨st₁, os₁, hrun₁, hadm₁⟩ := follow st'' ⟨_, ht', (faded_purge now t).purge_eq⟩
  obtain ⟨st₂, os₂, hrun₂, hadm₂⟩ := follow st₀ ⟨_, ht, rfl⟩
  exact ⟨st₁, os₁, st₂, os₂, hrun₁, hrun₂, admits_same strtod later _ _ _ hadm₁ hadm₂⟩

end ApexDB
