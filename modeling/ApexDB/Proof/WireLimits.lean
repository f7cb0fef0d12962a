import ApexDB.Proof.Counter
import ApexDB.Proof.Zquery

/-!
# What is stored fits the wire

A key, a string and a member came in a request that was within the limit. **The request that
brought something in is longer than every request that asks for it, and than the reply**: this
is a table of sizes (`Command.bodySize`), an invariant of the map (`FitsWire`), and a comparison
of the two for each command.

The map of scores says what the members are; what a range query lists is said by the tree, and
the two are readings of the same nodes (`Store.Models.same_entry`).
-/

set_option autoImplicit false

namespace ApexDB

open Lib BinaryTree

/-! ## 1. Requests and their sizes

A command that `execute` knows can be written down again as the strings of a request, and these
are the ones it came from. So the sizes of requests are a function of commands.
-/

/-- The strings of a request for this command. -/
def Command.words : Command → List Bytes
  | .ping none => [bytes "ping"]
  | .ping (some arg) => [bytes "ping", arg]
  | .exists key => [bytes "exists", key]
  | .type key => [bytes "type", key]
  | .persist key => [bytes "persist", key]
  | .incr key => [bytes "incr", key]
  | .get key => [bytes "get", key]
  | .set key val => [bytes "set", key, val]
  | .del key => [bytes "del", key]
  | .pexpire key arg => [bytes "pexpire", key, arg]
  | .pttl key => [bytes "pttl", key]
  | .keys => [bytes "keys"]
  | .zadd key arg name => [bytes "zadd", key, arg, name]
  | .zrem key name => [bytes "zrem", key, name]
  | .zscore key name => [bytes "zscore", key, name]
  | .zquery key arg name offset limit => [bytes "zquery", key, arg, name, offset, limit]
  | .unknown => []

def Command.bodySize : Command → Nat
  | .ping none => 12
  | .ping (some arg) => 16 + arg.length
  | .exists key => 18 + key.length
  | .type key => 16 + key.length
  | .persist key => 19 + key.length
  | .incr key => 16 + key.length
  | .get key => 15 + key.length
  | .set key val => 19 + key.length + val.length
  | .del key => 15 + key.length
  | .pexpire key arg => 23 + key.length + arg.length
  | .pttl key => 16 + key.length
  | .keys => 12
  | .zadd key arg name => 24 + key.length + arg.length + name.length
  | .zrem key name => 20 + key.length + name.length
  | .zscore key name => 22 + key.length + name.length
  | .zquery key arg name offset limit =>
    34 + key.length + arg.length + name.length + offset.length + limit.length
  | .unknown => 4

theorem length_words (c : Command) : (requestBody c.words).length = c.bodySize := by
  rw [length_requestBody]
  cases c with
  | ping arg =>
    cases arg with
    | none => rfl
    | some arg =>
      simp [Command.words, Command.bodySize, bytes]
      omega
  | _ =>
    simp [Command.words, Command.bodySize, bytes]
    try omega

/-- A vector of a known length, string by string. -/
theorem eq_words {cmd : List Bytes} {name : Bytes} {n : Nat} (hlen : cmd.length = n + 1)
    (hname : argAt cmd 0 = name) : cmd = name :: (List.range n).map fun i => argAt cmd (i + 1) := by
  refine List.ext_getElem (by simp [hlen]) fun i hi hi' => ?_
  cases i with
  | zero =>
    rw [List.getElem_cons_zero, ← hname, argAt, List.getD_eq_getElem?_getD, List.getElem?_eq_getElem hi]
    rfl
  | succ i =>
    rw [List.getElem_cons_succ, List.getElem_map, List.getElem_range, argAt,
      List.getD_eq_getElem?_getD, List.getElem?_eq_getElem hi]
    rfl

/-- **A command that is known is known by its strings**: writing it down again gives the vector
that it came from. -/
theorem dispatch_words (cmd : List Bytes) : dispatch cmd = .unknown ∨ cmd = (dispatch cmd).words := by
  have hall : ∀ motive : Command → Prop, motive .unknown →
      (∀ c, cmd = c.words → motive c) → motive (dispatch cmd) := by
    intro motive hunknown hwords
    unfold dispatch
    dsimp only
    refine iteInduction (fun hc => ?_) fun _ => ?_
    · -- `ping`, with and without an argument
      obtain ⟨hone | htwo, hname⟩ := hc
      · rw [if_neg (by omega)]
        exact hwords _ (eq_words hone hname)
      · rw [if_pos htwo]
        exact hwords _ (eq_words htwo hname)
    repeat' refine iteInduction (fun hc => hwords _ (eq_words hc.1 hc.2)) fun _ => ?_
    exact hunknown
  exact hall (fun c => c = .unknown ∨ cmd = c.words) (.inl rfl) fun c hc => .inr hc

def Command.Sendable (c : Command) : Prop := c = .unknown ∨ c.bodySize ≤ kMaxMsg

theorem sendable_of_length {cmd : List Bytes} (h : (requestBody cmd).length ≤ kMaxMsg) :
    (dispatch cmd).Sendable := by
  rcases dispatch_words cmd with hc | hc
  · exact .inl hc
  · right
    rwa [← length_words, ← hc]

theorem encodeRequest_ne_nil {cmd : List Bytes} :
    encodeRequest cmd ≠ [] ↔ cmd.length ≤ kMaxArgs ∧ (requestBody cmd).length ≤ kMaxMsg := by
  rw [(request_codec_exact cmd []).1, length_requestBody]

/-! ## 2. The invariant

Each entry is bounded by the limit less what the request around it needs. The bound for a member
has the key of the set in it, as they came in one request.
-/

theorem length_digitBytes {n : Nat} (h : n ≤ 2 ^ 63) : (digitBytes n).length ≤ 19 := by
  rw [digitBytes, List.length_map, Nat.length_toDigits_le_iff (by decide) (by decide)]
  omega

theorem length_toDecimal {n : Int} (h : -2 ^ 63 ≤ n ∧ n < 2 ^ 63) : (toDecimal n).length ≤ 20 := by
  have hlen := length_digitBytes (n := n.natAbs) (by omega)
  rw [toDecimal_eq]
  split
  · rw [List.length_cons]
    omega
  · omega

/-- The key, the string and the members came in requests within the limit. -/
def RefEntry.Fits (key : Bytes) (re : RefEntry Members) : Prop :=
  16 + key.length ≤ kMaxMsg ∧
    match re.value with
    | .str s => 5 + s.length ≤ kMaxMsg
    | .zset z => ∀ name ∈ z, 25 + key.length + name.length ≤ kMaxMsg

/-- **Everything in the map came over the wire.** -/
def RefStore.FitsWire (m : RefStore Members) : Prop :=
  m.All RefEntry.Fits

section Invariant

variable {m m' : RefStore Members} {key : Bytes} {re : RefEntry Members}

theorem RefStore.FitsWire.insert (h : m.FitsWire) (hre : re.Fits key) :
    RefStore.FitsWire (m.insert key re) :=
  RefStore.All.insert h hre

theorem RefStore.FitsWire.erase (h : m.FitsWire) (key : Bytes) : RefStore.FitsWire (m.erase key) :=
  RefStore.All.erase h key

theorem RefStore.FitsWire.faded {now : Nat} (h : m.FitsWire) (hf : Faded now m m') : m'.FitsWire :=
  RefStore.All.faded h hf

theorem mem_membersAdd {z : Members} {name n : Bytes} {score : Dbl}
    (h : n ∈ Members.add z name score) : n = name ∨ n ∈ z := by
  unfold Members.add at h
  split at h
  · exact Finmap.mem_insert.mp h
  · split at h
    · exact .inr h
    · exact Finmap.mem_insert.mp h

theorem length_of_str2dbl {strtod : Bytes → StrtodResult} {s : Bytes} {x : Dbl}
    (h : str2dbl strtod s = some x) : 1 ≤ s.length := by
  cases s with
  | nil =>
    rw [str2dbl] at h
    cases h
  | cons b s =>
    rw [List.length_cons]
    omega

theorem refIncr_fits (h : m.FitsWire) (hsize : 16 + key.length ≤ kMaxMsg) :
    (refIncr m key).1.FitsWire := by
  have hmax : 25 ≤ kMaxMsg := by decide
  unfold refIncr
  split
  · exact h.insert ⟨hsize, show 5 + (toDecimal 1).length ≤ kMaxMsg by decide⟩
  · exact h
  · split
    · exact h
    · rename_i v hv
      have hrange := str2int_range hv
      split
      · exact h
      · have hlen := length_toDecimal (n := v + 1) (by omega)
        refine h.insert ⟨hsize, ?_⟩
        dsimp only
        omega

theorem refZadd_fits (strtod : Bytes → StrtodResult) (h : m.FitsWire) {arg name : Bytes}
    (hsize : 24 + key.length + arg.length + name.length ≤ kMaxMsg) :
    (refZadd mapReading strtod m key arg name).1.FitsWire := by
  unfold refZadd
  split
  · exact h
  · rename_i score harg
    have harg := length_of_str2dbl harg
    split
    · refine h.insert ⟨by omega, fun n hn => ?_⟩
      rcases mem_membersAdd hn with rfl | hn
      · omega
      · exact absurd hn (Finmap.notMem_empty)
    · exact h
    · rename_i z d hl
      refine h.insert ⟨by omega, fun n hn => ?_⟩
      rcases mem_membersAdd hn with rfl | hn
      · omega
      · exact (h _ _ hl).2 n hn

/-- **A request within the limit keeps the invariant.** -/
theorem RefStore.FitsWire.command (strtod : Bytes → StrtodResult) (clk : Nat) (h : m.FitsWire)
    {c : Command} (hc : c.Sendable) : (refCommand mapReading strtod clk m c).1.FitsWire := by
  rcases hc with rfl | hc
  · exact h
  cases c with
  | persist k =>
    simp only [refCommand]
    split
    · rename_i v d hl
      have hfit := h _ _ hl
      exact h.insert hfit
    · exact h
  | incr k => exact refIncr_fits h hc
  | set k val =>
    simp only [refCommand]
    simp only [Command.bodySize] at hc
    split
    · exact h
    · exact h.insert ⟨by omega, by dsimp only; omega⟩
  | del k => exact h.erase k
  | pexpire k arg =>
    simp only [refCommand, refExpire]
    split
    · exact h
    · split
      · exact h
      · rename_i e hl
        have hfit := h _ _ hl
        split
        · exact h.erase k
        · exact h.insert hfit
  | zadd k arg name => exact refZadd_fits strtod h hc
  | zrem k name =>
    simp only [refCommand, refZrem]
    split
    · exact h
    · exact h
    · rename_i z d hl
      split
      · refine h.insert ⟨(h _ _ hl).1, fun n hn => ?_⟩
        exact (h _ _ hl).2 n (Finmap.mem_erase.mp hn).2
      · exact h
  | _ => exact h

end Invariant

/-- The event is no request, or one that `parse_req` accepts. -/
def StoreEvent.OnWire : StoreEvent → Prop
  | .execute _ _ cmd => ∃ body, parseReq body = some cmd
  | _ => True

/-- **Every run of requests from the wire keeps the invariant.** -/
theorem wire_run (strtod : Bytes → StrtodResult) (threads : Nat) {evs : List StoreEvent}
    (hwire : ∀ ev ∈ evs, ev.OnWire) :
    ∃ st outs m, run (storeStep strtod) { threads := threads } evs = some (st, outs) ∧
      st.Models ScoresOf m ∧ m.FitsWire := by
  have hstep : ∀ (st : Store) (ev : StoreEvent), ev.OnWire →
      (∃ m, st.Models ScoresOf m ∧ m.FitsWire) → ∃ st' o, storeStep strtod st ev = some (st', o) ∧
        ∃ m, st'.Models ScoresOf m ∧ m.FitsWire := by
    intro st ev hev hst
    obtain ⟨m, h, hfits⟩ := hst
    cases ev with
    | execute now clk cmd =>
      obtain ⟨body, hbody⟩ := hev
      obtain ⟨hb, hmax, -⟩ := parseReq_iff.mp hbody
      obtain ⟨st', v, hrun, -, h'⟩ := execute_spec mapReading_sound strtod h now clk cmd []
      exact ⟨st', _, hrun, _, h',
        (hfits.faded (faded_purge now m)).command strtod clk (sendable_of_length (hb ▸ hmax))⟩
    | processTimers now clk =>
      obtain ⟨st', hrun, m', h', hf, -⟩ := processTimers_spec h now
      exact ⟨st', [], by simp [storeStep, hrun], m', h', hfits.faded hf⟩
    | work =>
      obtain ⟨st', hrun, h'⟩ := work_spec h
      exact ⟨st', [], by simp [storeStep, hrun], m, h', hfits⟩
  obtain ⟨st, outs, hrun, m, h, hfits⟩ := run_inv (storeStep strtod) _ StoreEvent.OnWire hstep evs
    { threads := threads } hwire ⟨∅, Store.models_empty threads, RefStore.All.empty⟩
  exact ⟨st, outs, m, hrun, h, hfits⟩

/-! ## 3. What a reply is made of

Replies are known by the tree, and bounds by the map of scores; one store has both readings, and
they have the same entries.
-/

/-- The members of a range query are nodes of the tree, whatever the counters say. -/
theorem ZTree.mem_of_query {t : ZTree} {score : Dbl} {name : Bytes} {offset limit : Int} {z : ZNode}
    (h : z ∈ t.query score name offset limit) : z ∈ t.inorder := by
  have hcollect : ∀ (n : Nat) (o : Option (Loc ZNode)), (∀ L, o = some L → L.tree = t) →
      ∀ z ∈ collect n o, z ∈ t.inorder := by
    intro n
    induction n with
    | zero =>
      intro o _ z hz
      cases hz
    | succ n ih =>
      intro o ho z hz
      cases o with
      | none => cases hz
      | some L =>
        rcases List.mem_cons.mp hz with rfl | hz
        · rw [← ho L rfl]
          exact L.val_mem
        · refine ih _ (fun M hM => ?_) z hz
          rw [(rankWalk_total (by decide) L 1 (Nat.le_refl _)).2 M hM, ho L rfl]
  refine hcollect _ _ (fun L hL => ?_) z h
  obtain ⟨M, hM, hwalk⟩ := Option.bind_eq_some_iff.mp hL
  rw [(rankWalk_total (by decide) M offset (Nat.le_refl _)).2 L hwalk]
  exact seek_tree (fun _ h => by cases h) hM

theorem ZTree.length_query_le (t : ZTree) (score : Dbl) (name : Bytes) (offset limit : Int) :
    (t.query score name offset limit).length ≤ (limit.toNat + 1) / 2 := by
  have hcollect : ∀ (n : Nat) (o : Option (Loc ZNode)), (collect n o).length ≤ n := by
    intro n
    induction n with
    | zero =>
      intro o
      exact Nat.le_refl _
    | succ n ih =>
      intro o
      cases o with
      | none => exact Nat.zero_le _
      | some L => exact Nat.succ_le_succ (ih _)
  exact hcollect _ _

/-- **Two readings of one entry**: the same string, or a tree and the scores of its nodes. -/
theorem Store.Models.same_entry {st : Store} {t : RefStore ZTree} {m : RefStore Members}
    (ht : st.Models (· = ·) t) (h : st.Models ScoresOf m) {key : Bytes} {re : RefEntry ZTree}
    (hre : t.lookup key = some re) :
    ∃ re', m.lookup key = some re' ∧ re'.deadline = re.deadline ∧
      ((∃ s, re.value = .str s ∧ re'.value = .str s) ∨
        ∃ u z, re.value = .zset u ∧ re'.value = .zset z ∧ ∀ n ∈ u.inorder, n.name ∈ z) := by
  obtain ⟨rows, ht, hct⟩ := ht
  obtain ⟨rows', h, hc⟩ := h
  obtain ⟨r, hr, hkey, rfl⟩ := (hct key re).mp hre
  obtain ⟨r', hr', hid⟩ := List.mem_map.mp
    ((h.index.mem_nodes (ht.index.node_mem (List.mem_map_of_mem hr))).1)
  obtain ⟨⟨ent, hread, hk, hden⟩, hdl⟩ := ht.shows r hr
  obtain ⟨⟨ent', hread', hk', hden'⟩, hdl'⟩ := h.shows r' hr'
  simp only [hid] at hread' hdl'
  obtain rfl : ent = ent' := Option.some.inj (hread.symm.trans hread')
  refine ⟨r'.entry, (hc key _).mpr ⟨r', hr', hk'.symm.trans (hk.trans hkey), rfl⟩,
    hdl'.symm.trans hdl, ?_⟩
  obtain ⟨id, k, v, d⟩ := r
  obtain ⟨id', k', v', d'⟩ := r'
  cases v with
  | str s =>
    cases v' with
    | str s' => exact .inl ⟨s, rfl, by rw [← hden.2.1, ← hden'.2.1]⟩
    | zset z' => exact absurd (hden.1.symm.trans hden'.1) (by simp)
  | zset u =>
    cases v' with
    | str s' => exact absurd (hden.1.symm.trans hden'.1) (by simp)
    | zset z =>
      obtain ⟨-, ids, u, hu, rfl⟩ := hden
      obtain ⟨-, ids', u', hu', hs⟩ := hden'
      refine .inr ⟨u, z, rfl, rfl, fun n hn => ?_⟩
      rw [hu.mem_inorder_iff, ← hu'.mem_inorder_iff, hs.mem_iff hu'.ok] at hn
      exact Finmap.mem_of_lookup_eq_some hn

/-! ## 4. Replies within the limit

A reply is small if it fits into a response and is not itself the error for one that does not.
`keys` and range queries for more than one member list as much as there is, so they are excluded
here, and nothing else is.
-/

/-- A value that is sent as it is, and is not the error that stands for one that is not. -/
def Value.Small (v : Value) : Prop :=
  v.encode.length ≤ kMaxMsg ∧ ∀ msg, v ≠ .err ErrCode.tooBig.code msg

theorem small_nil : Value.nil.Small := ⟨by decide, fun _ => by simp⟩

theorem small_int (n : Int) : (Value.int n).Small := by
  refine ⟨?_, fun _ => by simp⟩
  rw [Value.encode, List.length_cons, length_le]
  decide

theorem small_dbl (bits : Nat) : (Value.dbl bits).Small := by
  refine ⟨?_, fun _ => by simp⟩
  rw [Value.encode, List.length_cons, length_le]
  decide

theorem small_str {s : Bytes} (h : 5 + s.length ≤ kMaxMsg) : (Value.str s).Small := by
  refine ⟨?_, fun _ => by simp⟩
  rw [length_encode_str]
  exact h

theorem small_err {code : ErrCode} {msg : String} (hcode : code ≠ .tooBig)
    (hmsg : (bytes msg).length ≤ 100) : (Value.ofErr code msg).Small := by
  have hmax : 109 ≤ kMaxMsg := by decide
  constructor
  · rw [Value.ofErr, Value.encode, List.length_cons, List.length_append, List.length_append,
      length_le, length_le]
    omega
  · intro msg' heq
    cases code with
    | tooBig => exact hcode rfl
    | _ => cases heq

theorem small_members {zs : List ZNode} (hlen : zs.length ≤ 1)
    (h : ∀ z ∈ zs, 25 + z.name.length ≤ kMaxMsg) : (Value.arr (memberValues zs)).Small := by
  refine ⟨?_, fun _ => by simp⟩
  match zs, hlen with
  | [], _ => decide
  | [z], _ =>
    have hz := h z List.mem_cons_self
    have hvalues : memberValues [z] = [.str z.name, .dbl z.score.bits] := rfl
    rw [hvalues, Value.encode, List.length_cons, List.length_append, length_le, Value.encodeAll,
      Value.encodeAll, Value.encodeAll, List.length_append, List.length_append, length_encode_str,
      Value.encode, List.length_cons, length_le]
    simp only [List.length_nil]
    omega

/-- The strings and the names of members are short enough for a reply. -/
def RefStore.Bounded (t : RefStore ZTree) : Prop :=
  ∀ key re, t.lookup key = some re →
    match re.value with
    | .str s => 5 + s.length ≤ kMaxMsg
    | .zset u => ∀ n ∈ u.inorder, 25 + n.name.length ≤ kMaxMsg

theorem RefStore.FitsWire.bounded {st : Store} {t : RefStore ZTree} {m : RefStore Members}
    (ht : st.Models (· = ·) t) (h : st.Models ScoresOf m) (hfits : m.FitsWire) : t.Bounded := by
  intro key re hre
  obtain ⟨re', hre', -, hsame⟩ := ht.same_entry h hre
  have hfit := (hfits key re' hre').2
  rcases hsame with ⟨s, hs, hs'⟩ | ⟨u, z, hu, hz, hmem⟩
  · rw [hs'] at hfit
    rw [hs]
    exact hfit
  · rw [hz] at hfit
    rw [hu]
    intro n hn
    have hname := hfit n.name (hmem n hn)
    omega

theorem RefStore.Bounded.purge {t : RefStore ZTree} (h : t.Bounded) (now : Nat) :
    (t.purge now).Bounded :=
  fun key re hre => h key re (lookup_purge_iff.mp hre).1

/-- Not `keys`, and no `zquery` for more than one member. -/
def Command.ShortReply : Command → Prop
  | .keys => False
  | .zquery _ _ _ _ limArg => ∀ limit, str2int limArg = some limit → limit ≤ 2
  | _ => True

theorem refZquery_small (strtod : Bytes → StrtodResult) {t : RefStore ZTree} (h : t.Bounded)
    {key arg name offArg limArg : Bytes}
    (hlim : ∀ limit, str2int limArg = some limit → limit ≤ 2) {v : Value}
    (hv : (refZquery treeReading strtod t key arg name offArg limArg).Admits v) : v.Small := by
  unfold refZquery at hv
  split at hv
  · rw [show v = _ from hv]
    exact small_err (by decide) (by decide)
  · split at hv
    · rename_i offset limit hoff hlimit
      have hle := hlim limit hlimit
      split at hv
      · rw [show v = _ from hv]
        exact small_err (by decide) (by decide)
      · rename_i u hset
        split at hv
        · rw [show v = _ from hv]
          exact @small_members [] (by decide) (by simp)
        · rw [hv.1 trivial]
          refine small_members ((ZTree.length_query_le u _ _ _ _).trans (by omega)) fun z hz => ?_
          have hz := ZTree.mem_of_query hz
          unfold refZset at hset
          split at hset
          · cases hset
            cases hz
          · cases hset
          · rename_i u' d hl
            cases hset
            exact h _ _ hl z hz
    · rw [show v = _ from hv]
      exact small_err (by decide) (by decide)

/-- **No reply to a request within the limit is too big**, but to `keys` and to long range
queries. -/
theorem reply_small (strtod : Bytes → StrtodResult) (clk : Nat) {t : RefStore ZTree} (h : t.Bounded)
    {c : Command} (hc : c.Sendable) (hshort : c.ShortReply) {v : Value}
    (hv : (refCommand treeReading strtod clk t c).2.Admits v) : v.Small := by
  rcases hc with rfl | hc
  · rw [show v = _ from hv]
    exact small_err (by decide) (by decide)
  cases c with
  | ping arg =>
    rw [show v = _ from hv]
    cases arg with
    | none => exact small_str (by decide)
    | some arg =>
      simp only [Command.bodySize] at hc
      exact small_str (by rw [Option.getD_some]; omega)
  | type key =>
    rw [show v = _ from hv]
    split
    · exact small_str (by decide)
    · rename_i e _
      obtain ⟨value, d⟩ := e
      cases value with
      | str s => exact small_str (show 5 + (bytes "string").length ≤ kMaxMsg by decide)
      | zset u => exact small_str (show 5 + (bytes "zset").length ≤ kMaxMsg by decide)
  | get key =>
    rw [show v = _ from hv]
    split
    · exact small_nil
    · rename_i s d hl
      exact small_str (h _ _ hl)
    · exact small_err (by decide) (by decide)
  | keys => exact hshort.elim
  | zquery key arg name offArg limArg => exact refZquery_small strtod h hshort hv
  | unknown =>
    rw [show v = _ from hv]
    exact small_err (by decide) (by decide)
  | «exists» key | del key | pttl key =>
    rw [show v = _ from hv]
    exact small_int _
  | persist key =>
    simp only [refCommand] at hv
    split at hv <;> exact hv ▸ small_int _
  | set key val =>
    simp only [refCommand] at hv
    split at hv
    · exact hv ▸ small_err (by decide) (by decide)
    · exact hv ▸ small_str (by decide)
  | incr key =>
    simp only [refCommand, refIncr] at hv
    split at hv
    · exact hv ▸ small_int _
    · exact hv ▸ small_err (by decide) (by decide)
    · split at hv
      · exact hv ▸ small_err (by decide) (by decide)
      · split at hv
        · exact hv ▸ small_err (by decide) (by decide)
        · exact hv ▸ small_int _
  | pexpire key arg =>
    simp only [refCommand, refExpire] at hv
    split at hv
    · exact hv ▸ small_err (by decide) (by decide)
    · split at hv
      · exact hv ▸ small_int _
      · split at hv <;> exact hv ▸ small_int _
  | zadd key arg name =>
    simp only [refCommand, refZadd] at hv
    split at hv
    · exact hv ▸ small_err (by decide) (by decide)
    · split at hv
      · exact hv ▸ small_int _
      · exact hv ▸ small_err (by decide) (by decide)
      · exact hv ▸ small_int _
  | zrem key name =>
    simp only [refCommand, refZrem] at hv
    split at hv
    · exact hv ▸ small_int _
    · exact hv ▸ small_err (by decide) (by decide)
    · split at hv <;> exact hv ▸ small_int _
  | zscore key name =>
    simp only [refCommand, refZscore] at hv
    split at hv
    · exact hv ▸ small_err (by decide) (by decide)
    · split at hv
      · exact hv ▸ small_nil
      · exact hv ▸ small_dbl _

end ApexDB
