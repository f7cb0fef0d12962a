import ApexDB.Proof.Cluster
import ApexDB.Proof.WireLimits

/-!
# What was set is read back

`set` is answered `OK`, by a store and by a proxy, **unless the key holds a sorted set when the
expired keys are gone** (`Store.HoldsSet`, read off the entries), and the key then has that
string and no deadline. From there on the string stays as long as no request **writes** the key,
and the deadline is what the requests in between make it (`Command.keeps`); this is said of the
reference store, and the single store and the proxy both answer as it does. The reply to `get`
is shorter than the request that set the string, so it is the string and not the error in its
place.

That a stored thing can be asked for at all is a matter of lengths: `WireLimits.lean` carries a
bound on every key, value and member through all runs, and here it meets the sizes of the
requests that ask for them.
-/

set_option autoImplicit false

namespace ApexDB

open Lib

/-! ## 1. Requests that do not write a string

What may come between is anything that leaves the string, and the deadline is followed through
it: `pexpire` sets one, `persist` clears it, and any other command keeps it.
-/

/-- The deadline after a command, of a key that holds the string `s` and has the deadline `d`;
`none` for a command that writes or deletes the key. One that fails on a string is no write. -/
def Command.keeps (clk : Nat) (key s : Bytes) (d : Option Nat) : Command → Option (Option Nat)
  | .set k _ => if k = key then none else some d
  | .del k => if k = key then none else some d
  | .incr k =>
    if k = key ∧ str2int s ≠ none ∧ str2int s ≠ some (2 ^ 63 - 1) then none else some d
  | .persist k => some (if k = key then none else d)
  | .pexpire k arg =>
    if k = key then
      match str2int arg with
      | none => some d
      | some ttl => if ttl ≤ 0 then none else some (some (wrapDeadline clk ttl.toNat))
    else some d
  | _ => some d

theorem Command.keeps_other {clk : Nat} {key s : Bytes} {d : Option Nat} {c : Command}
    (hkey : c.key? ≠ some key) : c.keeps clk key s d = some d := by
  cases c with
  | set k | del k | incr k | persist k | pexpire k =>
    have hne : k ≠ key := fun h => hkey (congrArg some h)
    simp [Command.keeps, hne]
  | _ => rfl

/-- **A command that does not write the string leaves it**, with the deadline that `keeps` says.
-/
theorem refCommand_keeps_str (strtod : Bytes → StrtodResult) (clk : Nat) {m : RefStore ZTree}
    {key s : Bytes} {d d' : Option Nat} {c : Command} (hl : m.lookup key = some ⟨.str s, d⟩)
    (hc : c.keeps clk key s d = some d') :
    (refCommand treeReading strtod clk m c).1.lookup key = some ⟨.str s, d'⟩ := by
  by_cases hkey : c.key? = some key
  · cases c with
    | ping | keys | unknown => cases hkey
    | set k val =>
      obtain rfl := Option.some.inj hkey
      rw [Command.keeps, if_pos rfl] at hc
      cases hc
    | del k =>
      obtain rfl := Option.some.inj hkey
      rw [Command.keeps, if_pos rfl] at hc
      cases hc
    | incr k =>
      obtain rfl := Option.some.inj hkey
      rw [Command.keeps] at hc
      split at hc
      · cases hc
      · rename_i hfail
        cases hc
        simp only [refCommand, refIncr, hl]
        split
        · exact hl
        · rename_i v hv
          rw [hv] at hfail
          rw [if_pos (by simpa using hfail)]
          exact hl
    | persist k =>
      obtain rfl := Option.some.inj hkey
      rw [Command.keeps, if_pos rfl] at hc
      cases hc
      cases d with
      | none => simp only [refCommand, hl]
      | some d =>
        simp only [refCommand, hl]
        exact Finmap.lookup_insert _
    | pexpire k arg =>
      obtain rfl := Option.some.inj hkey
      rw [Command.keeps, if_pos rfl] at hc
      cases harg : str2int arg with
      | none =>
        rw [harg] at hc
        cases hc
        simp only [refCommand, refExpire, harg]
        exact hl
      | some ttl =>
        simp only [harg] at hc
        split at hc
        · cases hc
        · rename_i hpos
          cases hc
          simp only [refCommand, refExpire, harg, hl]
          rw [if_neg hpos]
          exact Finmap.lookup_insert _
    | zadd k arg name =>
      obtain rfl := Option.some.inj hkey
      cases hc
      simp only [refCommand, refZadd, hl]
      split <;> exact hl
    | zrem k name =>
      obtain rfl := Option.some.inj hkey
      cases hc
      simp only [refCommand, refZrem, hl]
    | _ =>
      cases hc
      exact hl
  · rw [Command.keeps_other hkey] at hc
    cases hc
    rw [refCommand_other treeReading strtod clk hkey, hl]

/-- Events after which a key still holds the string `s`: from the deadline `d` to the deadline
`d'`, and never at or after one. -/
def ClusterKeeps (key s : Bytes) : Option Nat → List ClusterEvent → Option Nat → Prop
  | d, [], d' => d' = d
  | d, .request now clk cmd :: evs, d' => Before (some d) now ∧
      ∃ d₁, (dispatch cmd).keeps clk key s d = some d₁ ∧ ClusterKeeps key s d₁ evs d'
  | d, .processTimers _ _ _ :: evs, d' => ClusterKeeps key s d evs d'
  | d, .work _ :: evs, d' => ClusterKeeps key s d evs d'

theorem lookup_purge_before {Z : Type} {m : RefStore Z} {key : Bytes} {re : RefEntry Z} {now : Nat}
    (hl : m.lookup key = some re) (hnow : Before (some re.deadline) now) :
    (m.purge now).lookup key = some re := by
  rw [← hl]
  refine (faded_purge now m).lookup_before ?_
  rwa [RefStore.deadlineOf, hl]

theorem lookup_foldl_keeps (strtod : Bytes → StrtodResult) {key s : Bytes} {d' : Option Nat} :
    ∀ {evs : List ClusterEvent} {t : RefState ZTree} {d : Option Nat},
    t.map.lookup key = some ⟨.str s, d⟩ → ClusterKeeps key s d evs d' →
    (evs.foldl (ClusterEvent.next strtod) t).map.lookup key = some ⟨.str s, d'⟩ := by
  intro evs
  induction evs with
  | nil =>
    intro t d hl hk
    rw [show d' = d from hk]
    exact hl
  | cons ev evs ih =>
    intro t d hl hk
    rw [List.foldl_cons]
    cases ev with
    | request now clk cmd =>
      obtain ⟨hnow, d₁, hd₁, hk⟩ := hk
      exact ih (refCommand_keeps_str strtod clk (lookup_purge_before hl hnow) hd₁) hk
    | processTimers node now clk => exact ih (t := ⟨t.map, clk⟩) hl hk
    | work node => exact ih hl hk

/-! ## 2. Set, then get

Two answers at two times. The first is given where nothing is known of the key but that it holds
no sorted set; the second where the string is known from the first.
-/

def framed (v : Value) : Bytes := le 4 v.encode.length ++ v.encode

theorem frameOf_small {v : Value} (h : v.Small) : frameOf v.encode = framed v := by
  rw [frameOf, bodyOf, if_neg (Nat.not_lt.mpr h.1)]
  rfl

def Store.HoldsSet (st : Store) (key : Bytes) : Prop :=
  ∃ n ∈ st.db.nodes, ∃ ent, st.ents.read n.owner = some ent ∧ ent.key = key ∧ ent.type = .zset

theorem Store.Models.holdsSet {st : Store} {m : RefStore ZTree} (h : st.Models (· = ·) m) {key : Bytes} {t : ZTree}
    {d : Option Nat} (hlook : m.lookup key = some ⟨.zset t, d⟩) : st.HoldsSet key := by
  obtain ⟨rows, h, hc⟩ := h
  obtain ⟨r, hr, hk, hre⟩ := (hc key _).mp hlook
  obtain ⟨⟨ent, hread, hent, hden⟩, -⟩ := h.shows r hr
  rw [hre] at hden
  exact ⟨_, h.index.node_mem (List.mem_map_of_mem hr), ent, hread, hent.trans hk, hden.1⟩

/-- **`set` is answered `OK` and sets the string**, where there is no sorted set. -/
theorem set_reply (strtod : Bytes → StrtodResult) (clk : Nat) {m : RefStore ZTree} {key val : Bytes}
    (hkey : ∀ t d, m.lookup key ≠ some ⟨.zset t, d⟩) :
    refCommand treeReading strtod clk m (.set key val) =
      (m.insert key ⟨.str val, none⟩, .value (.str (bytes "OK"))) := by
  simp only [refCommand]

/-- Another reply than an error, to another request than `keys`, is the same from the proxy. -/
theorem Agree.eq_of_value {cmd : List Bytes} {v w : Value} (h : Agree cmd v w) (hcmd : cmd ≠ [bytes "keys"])
    (hv : ¬v.IsErr) : w = v := by
  rcases h with heq | ⟨herr, -⟩ | ⟨hkeys, -⟩
  · exact heq.symm
  · exact absurd herr hv
  · exact absurd hkeys hcmd

/-- If such a reply fits into a response, then both responses are the frame of it. -/
theorem Agree.framed {cmd : List Bytes} {v w : Value} (h : Agree cmd (sent v) (sent w))
    (hcmd : cmd ≠ [bytes "keys"]) (hv : ¬v.IsErr) (hsmall : v.Small) :
    frameOf v.encode = ApexDB.framed v ∧ frameOf w.encode = ApexDB.framed v := by
  have hsent : sent v = v := if_neg (Nat.not_lt.mpr hsmall.1)
  rw [hsent] at h
  have hframe : frameOf w.encode = frameOf v.encode := by
    rw [frameOf, frameOf, bodyOf_encode, bodyOf_encode, h.eq_of_value hcmd hv, hsent]
  rw [hframe, frameOf_small hsmall]
  exact ⟨rfl, rfl⟩

theorem get_admits (strtod : Bytes → StrtodResult) (clk : Nat) {m : RefStore ZTree} {key s : Bytes}
    {d : Option Nat} {v : Value} (hl : m.lookup key = some ⟨.str s, d⟩)
    (hv : (refCommand treeReading strtod clk m (.get key)).2.Admits v) : v = .str s := by
  simp only [refCommand, hl] at hv
  exact hv

/-- **Set, then get, directly and through the proxy.** If the key holds no sorted set, both
answers to `set` are `OK`, and both answers to `get` are the string, however many events that
keep it are in between. -/
theorem set_then_get (strtod : Bytes → StrtodResult) {numShards : Nat} (hN : 1 ≤ numShards)
    (threads : Nat) (shardThreads : Nat → Nat) {pre mid : List ClusterEvent} {key val : Bytes}
    {now clk now' clk' : Nat} {d : Option Nat}
    (hlegal : ClusterLegal numShards 0 (pre ++ .request now clk [bytes "set", key, val] ::
      (mid ++ [.request now' clk' [bytes "get", key]])))
    (hmid : ClusterKeeps key val none mid d) (hnow : Before (some d) now') :
    ∃ c outs st, run (Cluster.step strtod numShards)
        ⟨{ threads := threads }, ⟨fun i => { threads := shardThreads i }, []⟩⟩ pre = some (c, outs) ∧
      expire now c.single = some st ∧
      (¬st.HoldsSet key → ∃ c₁ c₂ outs' c₃,
        c.step strtod numShards (.request now clk [bytes "set", key, val]) =
          some (c₁, some (framed (.str (bytes "OK")), framed (.str (bytes "OK")))) ∧
        run (Cluster.step strtod numShards) c₁ mid = some (c₂, outs') ∧
        c₂.step strtod numShards (.request now' clk' [bytes "get", key]) =
          some (c₃, some (framed (.str val), framed (.str val)))) := by
  obtain ⟨c, outs, hpre, -, hc, hrest⟩ := Cluster.run_follows strtod hN pre
    (Cluster.follows_empty numShards threads shardThreads) hlegal
  obtain ⟨⟨hle, hclk, hset⟩, hrest⟩ := hrest
  obtain ⟨m, hm, hpurge⟩ := hc.single
  obtain ⟨st, hexp, hst⟩ := expire_spec hm now
  rw [purge_eq_mono hle hpurge] at hst
  refine ⟨c, outs, st, hpre, hexp, fun hkey => ?_⟩
  obtain ⟨c₁, v, w, hstep, hv, hagree₁, h₁⟩ := Cluster.step_values strtod hN hc hle hclk hset
  rw [show dispatch [bytes "set", key, val] = .set key val from rfl,
    set_reply strtod clk fun t d hlook => hkey (hst.holdsSet hlook)] at hv h₁
  obtain rfl : v = .str (bytes "OK") := hv
  have hok := hagree₁.framed (by simp) id (small_str (by decide))
  rw [hok.1, hok.2] at hstep
  obtain ⟨c₂, outs', hrun, -, h₂, hget, -⟩ := Cluster.run_follows strtod hN mid h₁ hrest
  obtain ⟨hle', hclk', hget⟩ := hget
  obtain ⟨c₃, v', w', hstep', hv', hagree₂, -⟩ := Cluster.step_values strtod hN h₂ hle' hclk' hget
  -- the reference has the string, within the limit
  obtain rfl : v' = .str val := by
    refine get_admits strtod clk' (lookup_purge_before (lookup_foldl_keeps strtod ?_ hmid) hnow) hv'
    exact Finmap.lookup_insert _
  obtain ⟨body, hbody⟩ := hset
  obtain ⟨hb, hmax, -⟩ := parseReq_iff.mp hbody
  rw [hb, show [bytes "set", key, val] = (Command.set key val).words from rfl, length_words,
    Command.bodySize] at hmax
  have hval := hagree₂.framed (by simp) id (small_str (by omega))
  rw [hval.1, hval.2] at hstep'
  exact ⟨c₁, c₂, outs', c₃, hstep, hrun, hstep'⟩

/-! ## 3. Nothing becomes unreadable

The requests that ask for a thing are not longer than the request that stored it, apart from
fixed parts. So what fits into a request can be asked for, and removed, by one that fits too.
-/

theorem encodable_of_size {c : Command} (h : c.bodySize ≤ kMaxMsg) : encodeRequest c.words ≠ [] := by
  have hsix : c.words.length ≤ 6 := by
    cases c with
    | ping arg => cases arg <;> simp [Command.words]
    | _ => simp [Command.words]
  have hargs : 6 ≤ kMaxArgs := by decide
  exact encodeRequest_ne_nil.mpr ⟨hsix.trans hargs, by rwa [length_words]⟩

/-- A deadline for the key, timers on a shard and a write to another key. -/
def betweenSetAndGet : List ClusterEvent :=
  [.request 6 7 [bytes "pexpire", bytes "k", bytes "100"], .processTimers (some 1) 8 8,
    .request 9 9 [bytes "set", bytes "other", bytes "w"], .work none]

end ApexDB
