import ApexDB.Faults
import ApexDB.Proof.ProxyService

/-!
# No update is lost or made twice

Remote calls may fail, and the proxy cannot tell how (`Faults.lean`). What can be said is about
the shards: **a request is executed at most once**, by the shard that owns its key, whatever
becomes of the call and however late; and an answer that is not "shard unreachable" is the
answer of that one execution. Each shard holds what a reference store holds after what was
executed there, in that order.

The proxy has no state of its own, so the argument is one about tags. A request that leaves the
proxy carries its number and the number of the shard, and no two that wait or were executed
carry the same.
-/

set_option autoImplicit false

namespace ApexDB

open Lib

/-! ## 1. What was done at a shard

The log of a fabric has all events of all shards in one sequence. What one shard did is a filter
of it, and the invariant says of each that its store is where that filter leads.
-/

def eventsAt (i : Nat) (log : List Done) : List StoreEvent := (log.filter (·.shard == i)).map Done.event

def repliesAt (i : Nat) (log : List Done) : List Bytes := (log.filter (·.shard == i)).map Done.reply

/-- The frame of what the store has written; only a request is answered. -/
def framedOut : StoreEvent → Bytes → Bytes
  | .execute _ _ _, out => frameOf out
  | _, _ => []

def Done.tag? (d : Done) : Option (Nat × Nat) := d.serial.map (·, d.shard)

def Sent.tag (m : Sent) : Nat × Nat := (m.serial, m.shard)

/-- The requests of the proxy that wait or were executed, by number and shard. That no two are
equal says that none is executed twice. -/
def Fabric.tags (s : Fabric) : List (Nat × Nat) := s.waiting.map Sent.tag ++ s.log.filterMap Done.tag?

def Goes (numShards shard : Nat) (cmd : List Bytes) : Prop :=
  (isScatterGatherCommand cmd = true ∧ shard < numShards) ∨
    ∃ key, routingKeyForCommand cmd = some key ∧ shard = shardForKey key numShards

/-- **What holds of the shards**, when `cmds` are the requests to the proxy. -/
structure Fabric.Inv (strtod : Bytes → StrtodResult) (numShards : Nat) (threads : Nat → Nat)
    (cmds : List (List Bytes)) (s : Fabric) : Prop where
  sound : ∀ i, ∃ m, (s.store i).Models (· = ·) m
  runs : ∀ i, ∃ outs, run (storeStep strtod) { threads := threads i } (eventsAt i s.log) = some (s.store i, outs) ∧
    repliesAt i s.log = List.zipWith framedOut (eventsAt i s.log) outs
  once : s.tags.Nodup
  waits : ∀ m ∈ s.waiting, cmds[m.serial]? = some m.cmd ∧ Goes numShards m.shard m.cmd ∧ encodeRequest m.cmd ≠ []
  origin : ∀ d ∈ s.log, ∀ k, d.serial = some k → ∃ now clk cmd, d.event = .execute now clk cmd ∧
    cmds[k]? = some cmd ∧ Goes numShards d.shard cmd

theorem Goes.not_rejects {numShards shard : Nat} {cmd : List Bytes} (h : Goes numShards shard cmd) :
    rejects shard numShards cmd = false := by
  rcases h with ⟨hkeys, -⟩ | ⟨key, hkey, rfl⟩
  · rw [eq_keys_of_scatter hkeys]
    exact rejects_keys shard numShards
  · simp [rejects, hkey]

section Step

variable {strtod : Bytes → StrtodResult} {numShards : Nat} {threads : Nat → Nat} {cmds : List (List Bytes)}
  {s : Fabric}

theorem eventsAt_push (i : Nat) (log : List Done) (d : Done) :
    eventsAt i (log ++ [d]) = if d.shard = i then eventsAt i log ++ [d.event] else eventsAt i log := by
  by_cases hi : d.shard = i <;> simp [eventsAt, hi]

theorem repliesAt_push (i : Nat) (log : List Done) (d : Done) :
    repliesAt i (log ++ [d]) = if d.shard = i then repliesAt i log ++ [d.reply] else repliesAt i log := by
  by_cases hi : d.shard = i <;> simp [repliesAt, hi]

theorem Fabric.tags_push (store : Nat → Store) (d : Done) :
    ({ s with store := store, log := s.log ++ [d] } : Fabric).tags = s.tags ++ d.tag?.toList := by
  unfold Fabric.tags
  rw [List.filterMap_append, List.append_assoc]
  cases h : d.tag? <;> simp [h]

/-- **Something is done at a shard**: an event of its store, with a tag that is new if it has
one. -/
theorem Fabric.Inv.push (hinv : s.Inv strtod numShards threads cmds) {d : Done} {st : Store} {out : Bytes}
    {m : RefStore ZTree} (hstep : storeStep strtod (s.store d.shard) d.event = some (st, out))
    (hreply : d.reply = framedOut d.event out) (hm : st.Models (· = ·) m)
    (hfresh : ∀ tag, d.tag? = some tag → tag ∉ s.tags)
    (horigin : ∀ k, d.serial = some k → ∃ now clk cmd, d.event = .execute now clk cmd ∧
      cmds[k]? = some cmd ∧ Goes numShards d.shard cmd) :
    Fabric.Inv strtod numShards threads cmds
      { s with store := Function.update s.store d.shard st, log := s.log ++ [d] } := by
  refine ⟨fun i => ?_, fun i => ?_, ?_, hinv.waits, fun d' hd' => ?_⟩
  · dsimp only
    by_cases hi : i = d.shard
    · rw [hi, Function.update_self]
      exact ⟨m, hm⟩
    · rw [Function.update_of_ne hi]
      exact hinv.sound i
  · obtain ⟨outs, hrun, hreplies⟩ := hinv.runs i
    dsimp only
    rw [eventsAt_push, repliesAt_push]
    by_cases hi : i = d.shard
    · subst hi
      have hlen := run_length hrun
      rw [if_pos rfl, if_pos rfl, Function.update_self]
      refine ⟨outs ++ [out], run_append (by simp [run, hstep]) hrun, ?_⟩
      rw [List.zipWith_append hlen.symm, hreplies, hreply]
      rfl
    · rw [if_neg (Ne.symm hi), if_neg (Ne.symm hi), Function.update_of_ne hi]
      exact ⟨outs, hrun, hreplies⟩
  · rw [Fabric.tags_push]
    cases htag : d.tag? with
    | none => simpa using hinv.once
    | some tag =>
      refine List.nodup_append.mpr ⟨hinv.once, List.nodup_singleton _, ?_⟩
      rintro a ha b hb rfl
      rw [Option.toList_some, List.mem_singleton] at hb
      subst hb
      exact hfresh _ htag ha
  · rcases List.mem_append.mp hd' with hd' | hd'
    · exact hinv.origin d' hd'
    · rw [List.mem_singleton.mp hd']
      exact horigin

theorem Fabric.Inv.forget (hinv : s.Inv strtod numShards threads cmds) {waiting : List Sent}
    (hsub : waiting.Sublist s.waiting) (script : List (List Meanwhile × Fate)) :
    Fabric.Inv strtod numShards threads cmds { s with waiting := waiting, script := script } :=
  ⟨hinv.sound, hinv.runs, hinv.once.sublist ((hsub.map _).append_right _),
    fun m hm => hinv.waits m (hsub.subset hm), hinv.origin⟩

/-! ## 2. A shard executes a request

A request of the proxy that a shard comes to is either taken or refused, and it is refused only
by a shard that does not own the key, to which the proxy does not send it. Meanwhile other
clients may send what they like to any of the shards.
-/

/-- The shard comes to a request that it takes: its store executes it, and the frame is the
answer. -/
theorem Fabric.serve_taken (strtod : Bytes → StrtodResult) (serial : Option Nat) {shard : Nat}
    (now clk : Nat) {cmd : List Bytes}
    (hs : ∃ m, (s.store shard).Models (· = ·) m) (henc : encodeRequest cmd ≠ [])
    (htake : rejects shard numShards cmd = false) :
    ∃ st body m, storeStep strtod (s.store shard) (.execute now clk cmd) = some (st, body) ∧
      st.Models (· = ·) m ∧
      Fabric.serve strtod numShards serial shard now clk cmd s = some
        ({ s with store := Function.update s.store shard st,
                  log := s.log ++ [⟨serial, shard, .execute now clk cmd, frameOf body⟩] }, frameOf body) := by
  obtain ⟨m, hm⟩ := hs
  obtain ⟨st, v, hrun, -, hst⟩ := execute_spec treeReading_sound strtod hm now clk cmd []
  rw [List.nil_append] at hrun
  have hresp : respond (shardOnRequest strtod shard numShards now clk) (s.store shard) cmd [] =
      some (st, frameOf v.encode) := by
    refine respond_spec [] ?_
    rw [shardOnRequest, htake, if_neg (by decide), execute_appends, hrun]
    rfl
  refine ⟨st, v.encode, _, hrun, hst, ?_⟩
  unfold Fabric.serve
  simp only [tryOneRequest_eq, cutRequest_encode henc, Conn.new, hresp, htake]
  rfl

/-- What it refuses, or cannot have been sent, leaves the shards as they are. -/
theorem Fabric.serve_refused (strtod : Bytes → StrtodResult) (serial : Option Nat) (shard now clk : Nat)
    {cmd : List Bytes}
    (h : encodeRequest cmd = [] ∨ rejects shard numShards cmd = true) :
    ∃ framed, Fabric.serve strtod numShards serial shard now clk cmd s = some (s, framed) := by
  have hsame : Function.update s.store shard (s.store shard) = s.store := Function.update_eq_self _ _
  unfold Fabric.serve
  by_cases henc : encodeRequest cmd = []
  · refine ⟨[], ?_⟩
    rw [henc, tryOneRequest_eq]
    show some (({ s with store := Function.update s.store shard (s.store shard) } : Fabric), _) = _
    rw [hsame]
    rfl
  · have hrej := h.resolve_left henc
    have hresp : respond (shardOnRequest strtod shard numShards now clk) (s.store shard) cmd [] =
        some (s.store shard, frameOf (Value.ofErr .badArg "key does not belong to this shard").encode) := by
      refine respond_spec [] ?_
      rw [shardOnRequest, if_pos hrej, outErr_eq]
    refine ⟨frameOf (Value.ofErr .badArg "key does not belong to this shard").encode, ?_⟩
    simp only [tryOneRequest_eq, cutRequest_encode henc, Conn.new, hresp, hrej, Option.map_some,
      Option.bind_eq_bind, Option.bind_some, Bool.not_true, Bool.and_false, hsame]
    rfl

/-- What a step of the shards does not change, and the requests that it may add to those on
their way. -/
structure Fabric.Grows (s s' : Fabric) (new : Nat × Nat → Prop) : Prop where
  serial : s'.serial = s.serial
  log : s.log <+: s'.log
  tags : ∀ tag ∈ s'.tags, tag ∈ s.tags ∨ new tag

theorem Fabric.Grows.trans {s₁ s₂ s₃ : Fabric} {new : Nat × Nat → Prop} (h : s₁.Grows s₂ new)
    (h' : s₂.Grows s₃ new) : s₁.Grows s₃ new :=
  ⟨h'.serial.trans h.serial, h.log.trans h'.log,
    fun tag htag => (h'.tags tag htag).elim (h.tags tag) .inr⟩

theorem Fabric.Grows.weaken {s₁ s₂ : Fabric} {new new' : Nat × Nat → Prop} (h : s₁.Grows s₂ new)
    (hnew : ∀ tag, new tag → new' tag) : s₁.Grows s₂ new' :=
  ⟨h.serial, h.log, fun tag htag => (h.tags tag htag).imp_right (hnew tag)⟩

theorem Fabric.grows_push (store : Nat → Store) (d : Done) :
    s.Grows { s with store := store, log := s.log ++ [d] } fun tag => d.tag? = some tag := by
  refine ⟨rfl, List.prefix_append _ _, fun tag htag => ?_⟩
  rw [Fabric.tags_push] at htag
  exact (List.mem_append.mp htag).imp_right Option.mem_toList.mp

theorem Fabric.grows_forget {waiting : List Sent} (hsub : waiting.Sublist s.waiting)
    (script : List (List Meanwhile × Fate)) :
    s.Grows { s with waiting := waiting, script := script } fun _ => False :=
  ⟨rfl, List.prefix_refl _, fun _ htag => .inl (((hsub.map _).append_right _).subset htag)⟩

/-- **A request of the proxy is executed**: one whose tag is new. -/
theorem Fabric.Inv.serve (hinv : s.Inv strtod numShards threads cmds) {k shard : Nat} (now clk : Nat)
    {cmd : List Bytes} (hcmd : cmds[k]? = some cmd) (hgoes : Goes numShards shard cmd)
    (henc : encodeRequest cmd ≠ []) (hfresh : (k, shard) ∉ s.tags) :
    ∃ s' body, Fabric.serve strtod numShards (some k) shard now clk cmd s = some (s', frameOf body) ∧
      s'.Inv strtod numShards threads cmds ∧ (s.Grows s' fun tag => tag = (k, shard)) ∧
      ⟨some k, shard, .execute now clk cmd, frameOf body⟩ ∈ s'.log := by
  obtain ⟨st, body, m, hstep, hm, hserve⟩ :=
    Fabric.serve_taken strtod (some k) now clk (hinv.sound shard) henc hgoes.not_rejects
  refine ⟨_, body, hserve,
    hinv.push (d := ⟨some k, shard, .execute now clk cmd, frameOf body⟩) hstep rfl hm ?_ ?_, ?_, ?_⟩
  · rintro tag ⟨⟩
    exact hfresh
  · rintro k' ⟨⟩
    exact ⟨now, clk, cmd, rfl, hcmd, hgoes⟩
  · exact (Fabric.grows_push _ _).weaken fun tag htag => (Option.some.inj htag).symm
  · exact List.mem_append_right _ (List.mem_singleton_self _)

theorem Fabric.Inv.own (hinv : s.Inv strtod numShards threads cmds) {shard : Nat} {ev : StoreEvent} {st : Store}
    {out : Bytes} {m : RefStore ZTree} (hstep : storeStep strtod (s.store shard) ev = some (st, out))
    (hm : st.Models (· = ·) m) :
    Fabric.Inv strtod numShards threads cmds
        { s with store := Function.update s.store shard st,
                 log := s.log ++ [⟨none, shard, ev, framedOut ev out⟩] } ∧
      s.Grows { s with store := Function.update s.store shard st,
                       log := s.log ++ [⟨none, shard, ev, framedOut ev out⟩] } fun _ => False :=
  ⟨hinv.push (d := ⟨none, shard, ev, framedOut ev out⟩) hstep rfl hm (fun _ h => nomatch h) (fun _ h => nomatch h),
    (Fabric.grows_push _ _).weaken fun _ h => nomatch h⟩

theorem Fabric.Inv.not_mem_eraseIdx (hinv : s.Inv strtod numShards threads cmds) {k : Nat} {m : Sent}
    (hm : s.waiting[k]? = some m) : m.tag ∉ ({ s with waiting := s.waiting.eraseIdx k } : Fabric).tags := by
  have hmem : m.tag ∈ s.waiting.map Sent.tag :=
    List.mem_map_of_mem (List.mem_of_getElem? hm)
  obtain ⟨hnodup, -, hdisj⟩ := List.nodup_append.mp hinv.once
  intro htag
  rcases List.mem_append.mp htag with htag | htag
  · dsimp only at htag
    rw [← List.eraseIdx_map, List.mem_eraseIdx_iff_getElem?] at htag
    obtain ⟨j, hjk, hj⟩ := htag
    have hk : (s.waiting.map Sent.tag)[k]? = some m.tag := by rw [List.getElem?_map, hm]; rfl
    have hlt : j < (s.waiting.map Sent.tag).length := (List.getElem?_eq_some_iff.mp hj).1
    exact hjk ((List.getElem?_inj hlt hnodup).mp (hj.trans hk.symm))
  · exact hdisj _ hmem _ htag rfl

/-- **Whatever happens at a shard** keeps the invariant, and no request of the proxy is added.
-/
theorem Fabric.Inv.meanwhile (hinv : s.Inv strtod numShards threads cmds) (w : Meanwhile) :
    ∃ s', s.meanwhile strtod numShards w = some s' ∧ s'.Inv strtod numShards threads cmds ∧
      s.Grows s' fun _ => False := by
  cases w with
  | late k now clk =>
    cases hm : s.waiting[k]? with
    | none =>
      exact ⟨s, by simp only [Fabric.meanwhile, hm], hinv, rfl, List.prefix_refl _, fun _ h => .inl h⟩
    | some m =>
      have hsub := s.waiting.eraseIdx_sublist k
      obtain ⟨hcmd, hgoes, henc⟩ := hinv.waits m (List.mem_of_getElem? hm)
      obtain ⟨s', body, hserve, hinv', hgrows, -⟩ :=
        (hinv.forget hsub s.script).serve now clk hcmd hgoes henc (hinv.not_mem_eraseIdx hm)
      refine ⟨s', by simp only [Fabric.meanwhile, hm, hserve]; rfl, hinv', hgrows.serial, hgrows.log,
        fun tag htag => .inl ?_⟩
      -- what was executed is what waited
      rcases hgrows.tags tag htag with h | rfl
      · exact ((hsub.map _).append_right _).subset h
      · exact List.mem_append_left _ (List.mem_map.mpr ⟨m, List.mem_of_getElem? hm, rfl⟩)
  | forgotten k =>
    exact ⟨_, rfl, hinv.forget (s.waiting.eraseIdx_sublist k) s.script,
      Fabric.grows_forget (s.waiting.eraseIdx_sublist k) s.script⟩
  | direct shard now clk cmd =>
    by_cases h : encodeRequest cmd = [] ∨ rejects shard numShards cmd = true
    · obtain ⟨framed, hserve⟩ := Fabric.serve_refused (s := s) strtod none shard now clk h
      exact ⟨s, by simp only [Fabric.meanwhile, hserve]; rfl, hinv, rfl, List.prefix_refl _, fun _ h => .inl h⟩
    · obtain ⟨henc, htake⟩ := not_or.mp h
      obtain ⟨st, body, m, hstep, hm, hserve⟩ := Fabric.serve_taken (s := s) strtod none now clk
        (hinv.sound shard) henc (Bool.eq_false_iff.mpr htake)
      exact ⟨_, by simp only [Fabric.meanwhile, hserve]; rfl, hinv.own hstep hm⟩
  | processTimers shard now =>
    obtain ⟨m, hm⟩ := hinv.sound shard
    obtain ⟨st, hrun, m', hst, -⟩ := processTimers_spec hm now
    have hstep : storeStep strtod (s.store shard) (.processTimers now now) = some (st, []) := by
      simp [storeStep, hrun]
    exact ⟨_, by simp only [Fabric.meanwhile, hrun, Option.bind_eq_bind, Option.bind_some]; rfl,
      hinv.own hstep hst⟩
  | work shard =>
    obtain ⟨m, hm⟩ := hinv.sound shard
    obtain ⟨st, hrun, hst⟩ := work_spec hm
    have hstep : storeStep strtod (s.store shard) .work = some (st, []) := by simp [storeStep, hrun]
    exact ⟨_, by simp only [Fabric.meanwhile, hrun, Option.bind_eq_bind, Option.bind_some]; rfl,
      hinv.own hstep hst⟩

/-! ## 3. A call of the proxy

A call is lost before the shard has all of the request, or the shard comes to it late, or the
answer does not get through; the caller sees the same in all three cases. A request that the
shard comes to late is among those that wait, and is executed while other calls are on their
way, or never.
-/

/-- The shard executed this request of the proxy, once it came to it, and answered with this. -/
def Executed (log : List Done) (k shard : Nat) (cmd : List Bytes) (body : Bytes) : Prop :=
  ∃ now clk, ⟨some k, shard, .execute now clk cmd, frameOf body⟩ ∈ log

theorem Executed.mono {log log' : List Done} {k shard : Nat} {cmd : List Bytes} {body : Bytes}
    (h : Executed log k shard cmd body) (hlog : log <+: log') : Executed log' k shard cmd body := by
  obtain ⟨now, clk, hmem⟩ := h
  exact ⟨now, clk, hlog.subset hmem⟩

/-- The shard has all of a request, and has not come to it. -/
theorem Fabric.Inv.await (hinv : s.Inv strtod numShards threads cmds) {m : Sent} (hcmd : cmds[m.serial]? = some m.cmd)
    (hgoes : Goes numShards m.shard m.cmd) (henc : encodeRequest m.cmd ≠ []) (hfresh : m.tag ∉ s.tags) :
    Fabric.Inv strtod numShards threads cmds { s with waiting := s.waiting ++ [m] } ∧
      s.Grows { s with waiting := s.waiting ++ [m] } fun tag => tag = m.tag := by
  have hperm : ({ s with waiting := s.waiting ++ [m] } : Fabric).tags.Perm (m.tag :: s.tags) := by
    unfold Fabric.tags
    rw [List.map_append, List.append_assoc]
    exact List.perm_middle
  refine ⟨⟨hinv.sound, hinv.runs, hperm.nodup_iff.mpr (List.nodup_cons.mpr ⟨hfresh, hinv.once⟩), ?_, hinv.origin⟩,
    rfl, List.prefix_refl _, fun tag htag => ?_⟩
  · intro m' hm'
    rcases List.mem_append.mp hm' with hm' | hm'
    · exact hinv.waits m' hm'
    · rw [List.mem_singleton.mp hm']
      exact ⟨hcmd, hgoes, henc⟩
  · exact (List.mem_cons.mp (hperm.subset htag)).symm

/-- **One remote call**, whatever becomes of it: it fails, or the answer is that of the shard to
it. -/
theorem Fabric.Inv.rpc (hinv : s.Inv strtod numShards threads cmds) {i : Nat} {cmd : List Bytes}
    (hcmd : cmds[s.serial]? = some cmd) (hgoes : Goes numShards i cmd) (hfresh : (s.serial, i) ∉ s.tags) :
    ∃ s' framed, Fabric.rpc strtod numShards i s cmd = some (s', framed) ∧
      s'.Inv strtod numShards threads cmds ∧ (s.Grows s' fun tag => tag = (s.serial, i)) ∧
      (framed = none ∨ ∃ body, framed = some (frameOf body) ∧ Executed s'.log s.serial i cmd body) := by
  by_cases henc : encodeRequest cmd = []
  · refine ⟨s, none, ?_, hinv, ⟨rfl, List.prefix_refl _, fun _ h => .inl h⟩, .inl rfl⟩
    rw [Fabric.rpc, tcpRpc, tcpRpcRaw, henc]
    rfl
  unfold Fabric.rpc
  rw [tcpRpc_writing henc]
  obtain ⟨before, fate⟩ := s.script.headD ([], .lost)
  obtain ⟨s₁, hbefore, hinv₁, hgrows₁⟩ := foldlM_inv
    (fun s' : Fabric => s'.Inv strtod numShards threads cmds ∧ s.Grows s' fun _ => False) (fun _ => True)
    (by
      rintro s₀ w - ⟨hinv₀, hgrows₀⟩
      obtain ⟨s', hrun, hinv', hgrows⟩ := hinv₀.meanwhile w
      exact ⟨s', hrun, hinv', hgrows₀.trans hgrows⟩)
    before { s with script := s.script.tail } (fun _ _ => trivial)
    ⟨hinv.forget (List.Sublist.refl _) _, Fabric.grows_forget (List.Sublist.refl _) _⟩
  have hfresh₁ : (s.serial, i) ∉ s₁.tags := fun h => hfresh ((hgrows₁.tags _ h).resolve_right id)
  have hgrows₁ : s.Grows s₁ fun tag => tag = (s.serial, i) := hgrows₁.weaken fun _ h => h.elim
  simp only [hbefore, Option.bind_eq_bind, Option.bind_some]
  have hserial := hgrows₁.serial
  cases fate with
  | lost => exact ⟨s₁, none, rfl, hinv₁, hgrows₁, .inl rfl⟩
  | late =>
    obtain ⟨hinv', hgrows⟩ := hinv₁.await (m := ⟨s₁.serial, i, cmd⟩) (hserial ▸ hcmd) hgoes henc (hserial ▸ hfresh₁)
    exact ⟨_, none, rfl, hinv', hgrows₁.trans (hgrows.weaken fun _ h => by rw [h, Sent.tag, hserial]), .inl rfl⟩
  | unanswered now clk =>
    obtain ⟨s', body, hserve, hinv', hgrows, -⟩ :=
      hinv₁.serve now clk (hserial ▸ hcmd) hgoes henc (hserial ▸ hfresh₁)
    rw [hserial] at hgrows
    exact ⟨s', none, by simp only [hserve, Option.bind_some]; rfl, hinv', hgrows₁.trans hgrows, .inl rfl⟩
  | answered now clk =>
    obtain ⟨s', body, hserve, hinv', hgrows, hmem⟩ :=
      hinv₁.serve now clk (hserial ▸ hcmd) hgoes henc (hserial ▸ hfresh₁)
    rw [hserial] at hgrows hmem
    exact ⟨s', some (frameOf body), by simp only [hserve, Option.bind_some]; rfl, hinv', hgrows₁.trans hgrows,
      .inr ⟨body, rfl, now, clk, hmem⟩⟩

/-- **The loop over the shards**: one of them fails, or each has executed the request and
answered. -/
theorem Fabric.Inv.gather {cmd : List Bytes} : ∀ (ids : List Nat) {s : Fabric},
    s.Inv strtod numShards threads cmds → cmds[s.serial]? = some cmd → (∀ i ∈ ids, Goes numShards i cmd) →
    ids.Nodup → (∀ i ∈ ids, (s.serial, i) ∉ s.tags) →
    ∃ s' r, gather (Fabric.rpc strtod numShards) cmd ids s = some (s', r) ∧
      s'.Inv strtod numShards threads cmds ∧ (s.Grows s' fun tag => tag.1 = s.serial ∧ tag.2 ∈ ids) ∧
      (r = .error "shard unreachable" ∨ ∃ bodies : List Bytes, r = .ok (bodies.map bodyOf) ∧
        List.Forall₂ (fun i body => Executed s'.log s.serial i cmd body) ids bodies) := by
  intro ids
  induction ids with
  | nil =>
    intro s hinv _ _ _ _
    exact ⟨s, _, rfl, hinv, ⟨rfl, List.prefix_refl _, fun _ h => .inl h⟩, .inr ⟨[], rfl, .nil⟩⟩
  | cons i ids ih =>
    intro s hinv hcmd hgoes hnodup hfresh
    obtain ⟨hi, hnodup⟩ := List.nodup_cons.mp hnodup
    obtain ⟨s₁, framed, hone, hinv₁, hgrows₁, hframed⟩ :=
      hinv.rpc hcmd (hgoes i List.mem_cons_self) (hfresh i List.mem_cons_self)
    have hwide : s.Grows s₁ fun tag => tag.1 = s.serial ∧ tag.2 ∈ i :: ids :=
      hgrows₁.weaken fun _ h => h ▸ ⟨rfl, List.mem_cons_self⟩
    rcases hframed with rfl | ⟨body, rfl, hexec⟩
    · refine ⟨s₁, .error "shard unreachable", ?_, hinv₁, hwide, .inl rfl⟩
      simp only [ApexDB.gather, hone, shardBody, Option.bind_eq_bind, Option.bind_some]
      rfl
    -- the other shards have not been asked yet
    have hfresh₁ : ∀ j ∈ ids, (s₁.serial, j) ∉ s₁.tags := by
      intro j hj htag
      rw [hgrows₁.serial] at htag
      rcases hgrows₁.tags _ htag with h | h
      · exact hfresh j (List.mem_cons_of_mem _ hj) h
      · cases h
        exact hi hj
    obtain ⟨s₂, r, hrest, hinv₂, hgrows₂, hr⟩ := ih hinv₁ (hgrows₁.serial ▸ hcmd)
      (fun j hj => hgoes j (List.mem_cons_of_mem _ hj)) hnodup hfresh₁
    rw [hgrows₁.serial] at hgrows₂ hr
    have hgrows : s.Grows s₂ fun tag => tag.1 = s.serial ∧ tag.2 ∈ i :: ids :=
      hwide.trans (hgrows₂.weaken fun _ h => ⟨h.1, List.mem_cons_of_mem _ h.2⟩)
    refine ⟨s₂, r.map (bodyOf body :: ·), ?_, hinv₂, hgrows, ?_⟩
    · simp only [ApexDB.gather, hone, shardBody_frameOf, hrest, Option.bind_eq_bind, Option.bind_some]
      rfl
    · rcases hr with rfl | ⟨bodies, rfl, hall⟩
      · exact .inl rfl
      · exact .inr ⟨body :: bodies, rfl, .cons (hexec.mono hgrows₂.log) hall⟩

/-! ## 4. Requests to the proxy

The number of a request is its place in the sequence of requests, so a new one has a number that
no tag has yet.
-/

def unreachable : Bytes := frameOf (Value.ofErr .unknown "shard unreachable").encode

/-- What a client of the proxy may be told about its request: that the shard is not reachable,
or the answer of the execution that the log has for it. -/
structure Told (numShards : Nat) (log : List Done) (k : Nat) (cmd : List Bytes) (out : Bytes) : Prop where
  routed : ∀ key, routingKeyForCommand cmd = some key → out = unreachable ∨
    ∃ body, Executed log k (shardForKey key numShards) cmd body ∧ out = frameOf body
  gathered : isScatterGatherCommand cmd = true → out = unreachable ∨
    ∃ bodies : List Bytes,
      List.Forall₂ (fun i body => Executed log k i cmd body) (List.range numShards) bodies ∧
      out = frameOf ((mergeKeyArrays (bodies.map bodyOf) []).getD
        (Value.ofErr .unknown "failed to merge keys").encode)

theorem Told.mono {log log' : List Done} {k : Nat} {cmd : List Bytes} {out : Bytes}
    (h : Told numShards log k cmd out) (hlog : log <+: log') : Told numShards log' k cmd out := by
  refine ⟨fun key hkey => (h.routed key hkey).imp_right ?_, fun hkeys => (h.gathered hkeys).imp_right ?_⟩
  · rintro ⟨body, hexec, hout⟩
    exact ⟨body, hexec.mono hlog, hout⟩
  · rintro ⟨bodies, hall, hout⟩
    exact ⟨bodies, hall.imp fun _ _ hexec => hexec.mono hlog, hout⟩

theorem frameOf_bodyOf (b : Bytes) : frameOf (bodyOf b) = frameOf b := by
  have hlen := length_bodyOf b
  have hsame : bodyOf (bodyOf b) = bodyOf b := if_neg (by omega)
  rw [frameOf, hsame, frameOf]

theorem routingKey_of_scatter {cmd : List Bytes} (h : isScatterGatherCommand cmd = true) :
    routingKeyForCommand cmd = none := by
  rw [eq_keys_of_scatter h]
  decide

/-- **One request to the proxy.** Every request so far has a smaller number. -/
theorem Fabric.Inv.proxyOnRequest (hinv : s.Inv strtod numShards threads cmds) {cmd : List Bytes}
    (hcmd : cmds[s.serial]? = some cmd) (hold : ∀ tag ∈ s.tags, tag.1 < s.serial) :
    ∃ s' body, proxyOnRequest numShards (Fabric.rpc strtod numShards) s cmd [] = some (s', body) ∧
      s'.Inv strtod numShards threads cmds ∧ (s.Grows s' fun tag => tag.1 = s.serial) ∧
      Told numShards s'.log s.serial cmd (frameOf body) := by
  have hfresh : ∀ i, (s.serial, i) ∉ s.tags := fun i h => Nat.lt_irrefl _ (hold _ h)
  have hstay : s.Grows s fun tag => tag.1 = s.serial := ⟨rfl, List.prefix_refl _, fun _ h => .inl h⟩
  unfold ApexDB.proxyOnRequest
  by_cases hping : (cmd.length = 1 ∨ cmd.length = 2) ∧ cmd[0]? = some (bytes "ping")
  · obtain ⟨hkeys, hkey⟩ := ping_unrouted hping
    rw [if_pos hping]
    exact ⟨s, _, rfl, hinv, hstay, by simp [hkey], by simp [hkeys]⟩
  rw [if_neg hping]
  by_cases hkeys : isScatterGatherCommand cmd = true
  · obtain ⟨s', r, hrun, hinv', hgrows, hr⟩ := hinv.gather (List.range numShards) hcmd
      (fun i hi => .inl ⟨hkeys, List.mem_range.mp hi⟩) List.nodup_range (fun i _ => hfresh i)
    have hgrows := hgrows.weaken fun _ h => h.1
    have hrouted : ∀ out key, routingKeyForCommand cmd = some key → out = unreachable ∨
        ∃ body, Executed s'.log s.serial (shardForKey key numShards) cmd body ∧ out = frameOf body := by
      simp [routingKey_of_scatter hkeys]
    rw [if_pos hkeys, hrun]
    rcases hr with rfl | ⟨bodies, rfl, hall⟩
    · exact ⟨s', _, rfl, hinv', hgrows, hrouted _, fun _ => .inl rfl⟩
    · exact ⟨s', _, rfl, hinv', hgrows, hrouted _, fun _ => .inr ⟨bodies, hall, rfl⟩⟩
  rw [if_neg hkeys]
  cases hkey : routingKeyForCommand cmd with
  | none => exact ⟨s, _, rfl, hinv, hstay, by simp [hkey], fun h => absurd h hkeys⟩
  | some key =>
    obtain ⟨s', framed, hrun, hinv', hgrows, hframed⟩ :=
      hinv.rpc hcmd (.inr ⟨key, hkey, rfl⟩) (hfresh (shardForKey key numShards))
    have hgrows : s.Grows s' fun tag => tag.1 = s.serial := hgrows.weaken fun _ h => h ▸ rfl
    simp only [hrun, Option.bind_eq_bind, Option.bind_some]
    rcases hframed with rfl | ⟨body, rfl, hexec⟩
    · exact ⟨s', _, rfl, hinv', hgrows, fun _ _ => .inl rfl, fun h => absurd h hkeys⟩
    · refine ⟨s', bodyOf body, by rw [shardBody_frameOf]; rfl, hinv', hgrows, fun key' hkey' => ?_,
        fun h => absurd h hkeys⟩
      rw [hkey] at hkey'
      cases hkey'
      exact .inr ⟨body, hexec, frameOf_bodyOf body⟩

theorem Fabric.Inv.step (hinv : s.Inv strtod numShards threads cmds) {cmd : List Bytes}
    (hcmd : cmds[s.serial]? = some cmd) (hold : ∀ tag ∈ s.tags, tag.1 < s.serial) :
    ∃ s' out, s.step strtod numShards cmd = some (s', out) ∧ s'.Inv strtod numShards threads cmds ∧
      s'.serial = s.serial + 1 ∧ (∀ tag ∈ s'.tags, tag.1 < s'.serial) ∧ s.log <+: s'.log ∧
      Told numShards s'.log s.serial cmd out := by
  obtain ⟨s', body, hrun, hinv', hgrows, hans⟩ := hinv.proxyOnRequest hcmd hold
  refine ⟨{ s' with serial := s'.serial + 1 }, frameOf body, ?_,
    ⟨hinv'.sound, hinv'.runs, hinv'.once, hinv'.waits, hinv'.origin⟩, by rw [← hgrows.serial], ?_, hgrows.log, hans⟩
  · refine respond_spec [] ?_
    simp only [Fabric.onRequest, proxyOnRequest_appends numShards _ s cmd ([] ++ le 4 0), hrun,
      Option.bind_eq_bind, Option.bind_some, Option.map_some]
    rfl
  · intro tag htag
    show tag.1 < s'.serial + 1
    rw [hgrows.serial]
    rcases hgrows.tags tag htag with h | h
    · exact Nat.lt_succ_of_lt (hold tag h)
    · exact h ▸ Nat.lt_succ_self _

theorem Fabric.Inv.run : ∀ (rest pre : List (List Bytes)) {s : Fabric}, cmds = pre ++ rest →
    s.serial = pre.length → s.Inv strtod numShards threads cmds → (∀ tag ∈ s.tags, tag.1 < s.serial) →
    ∃ s' outs, Lib.run (Fabric.step strtod numShards) s rest = some (s', outs) ∧
      s'.Inv strtod numShards threads cmds ∧ s.log <+: s'.log ∧
      ∀ k cmd out, rest[k]? = some cmd → outs[k]? = some out →
        Told numShards s'.log (pre.length + k) cmd out := by
  intro rest
  induction rest with
  | nil =>
    intro pre s _ _ hinv _
    exact ⟨s, [], rfl, hinv, List.prefix_refl _, fun k cmd out h => by simp at h⟩
  | cons cmd rest ih =>
    intro pre s hcmds hserial hinv hold
    have hcmd : cmds[s.serial]? = some cmd := by simp [hcmds, hserial]
    obtain ⟨s₁, out, hstep, hinv₁, hserial₁, hold₁, hlog₁, hans⟩ := hinv.step hcmd hold
    obtain ⟨s', outs, hrest, hinv', hlog, hall⟩ := ih (pre ++ [cmd]) (by rw [hcmds]; simp)
      (by rw [hserial₁, hserial]; simp) hinv₁ hold₁
    refine ⟨s', out :: outs, by simp [Lib.run, hstep, hrest], hinv', hlog₁.trans hlog, fun k cmd' out' hk hout => ?_⟩
    cases k with
    | zero =>
      cases hk
      cases hout
      rw [hserial] at hans
      exact hans.mono hlog
    | succ k =>
      have h := hall k cmd' out' hk hout
      rwa [List.length_append, List.length_singleton, Nat.add_right_comm] at h

end Step

/-! ## 5. At most once

The reference that a shard follows is given the events of that shard in the order in which they
took effect, which need not be the order in which the proxy sent them.
-/

/-- A run of a store from its start, followed by the reference in any reading. -/
theorem run_follows {Z : Type} {R : Reading Z} {rel : ZTree → Z → Prop} (hR : R.Sound rel)
    {strtod : Bytes → StrtodResult} {threads : Nat} {evs : List StoreEvent} {st : Store} {outs : List Bytes}
    (hclock : ClockFrom 0 evs) (hrun : run (storeStep strtod) { threads := threads } evs = some (st, outs)) :
    (refMachine R strtod).Admits ⟨∅, 0⟩ evs outs ∧ st.Follows rel ((refMachine R strtod).final ⟨∅, 0⟩ evs) := by
  obtain ⟨st', outs', hrun', hadmits, hfollows⟩ := (refMachine R strtod).run_refines
    (R := fun (st : Store) t => st.Follows rel t) (fun st t ev h hp => storeStep_refines hR strtod h ev hp) evs
    { threads := threads } ⟨∅, 0⟩ (Store.follows_empty threads) (ClockFrom.legal R strtod hclock)
  rw [hrun] at hrun'
  cases hrun'
  exact ⟨hadmits, hfollows⟩

/-- **No update is lost or made twice.** Any requests to a proxy over any number of shards,
whatever becomes of its remote calls and whatever else the shards are asked meanwhile: every
request of the proxy was executed at most once at any shard, and only by a shard it goes to. The
proxy answers each request, and its answer is "shard unreachable" or the answer of that
execution. And every shard has answered, in the order of its own events, as a reference store
does, and holds what that store holds, if its clock did not go back; the sorted sets of the
reference are trees, which decide every reply, or finite maps from members to scores. -/
theorem executed_at_most_once (strtod : Bytes → StrtodResult) (numShards : Nat) (threads : Nat → Nat)
    (script : List (List Meanwhile × Fate)) (cmds : List (List Bytes)) :
    ∃ s outs, run (Fabric.step strtod numShards)
        { store := fun i => { threads := threads i }, script := script } cmds = some (s, outs) ∧
      (s.log.filterMap Done.tag?).Nodup ∧
      (∀ d ∈ s.log, ∀ k, d.serial = some k → ∃ now clk cmd, d.event = .execute now clk cmd ∧
        cmds[k]? = some cmd ∧ Goes numShards d.shard cmd) ∧
      (∀ k cmd out, cmds[k]? = some cmd → outs[k]? = some out → Told numShards s.log k cmd out) ∧
      ∀ i, ClockFrom 0 (eventsAt i s.log) → ∃ bodies,
        repliesAt i s.log = List.zipWith framedOut (eventsAt i s.log) bodies ∧
        (refMachine treeReading strtod).Admits ⟨∅, 0⟩ (eventsAt i s.log) bodies ∧
        (s.store i).Follows (· = ·) ((refMachine treeReading strtod).final ⟨∅, 0⟩ (eventsAt i s.log)) ∧
        (refMachine mapReading strtod).Admits ⟨∅, 0⟩ (eventsAt i s.log) bodies ∧
        (s.store i).Follows ScoresOf ((refMachine mapReading strtod).final ⟨∅, 0⟩ (eventsAt i s.log)) := by
  have hstart : Fabric.Inv strtod numShards threads cmds
      { store := fun i => { threads := threads i }, script := script } :=
    ⟨fun i => ⟨∅, Store.models_empty _⟩, fun i => ⟨[], rfl, rfl⟩, List.nodup_nil, by simp, by simp⟩
  obtain ⟨s, outs, hrun, hinv, -, hans⟩ :=
    Fabric.Inv.run cmds [] rfl rfl hstart (by simp [Fabric.tags])
  refine ⟨s, outs, hrun, (List.nodup_append.mp hinv.once).2.1, hinv.origin, fun k cmd out hk hout => ?_,
    fun i hclock => ?_⟩
  · have h := hans k cmd out hk hout
    rwa [List.length_nil, Nat.zero_add] at h
  · obtain ⟨bodies, hstore, hreplies⟩ := hinv.runs i
    obtain ⟨hadmits, hfollows⟩ := run_follows treeReading_sound hclock hstore
    obtain ⟨hadmits', hfollows'⟩ := run_follows mapReading_sound hclock hstore
    exact ⟨bodies, hreplies, hadmits, hfollows, hadmits', hfollows'⟩

/-- The first call is late, and the shard comes to it while the second one is on its way. -/
def lateUpdate : List (List Meanwhile × Fate) :=
  [([], .late), ([.processTimers 0 10, .late 0 20 20], .answered 30 30)]

/-- The client was told that its update did not go through; the next one reads it. -/
theorem executed_at_most_once_late :
    ∃ (s : Fabric) (outs : List Bytes), run (Fabric.step noScores 2)
        { store := fun _ => { threads := 4 }, script := lateUpdate }
        [[bytes "set", bytes "k", bytes "v"], [bytes "get", bytes "k"]] = some (s, outs) ∧
      outs = [unreachable, frameOf (Value.str (bytes "v")).encode] ∧
      s.log.filterMap Done.tag? = [(0, 0), (1, 0)] ∧ (s.log.filterMap Done.tag?).Nodup ∧
      ∃ bodies, (refMachine mapReading noScores).Admits ⟨∅, 0⟩ (eventsAt 0 s.log) bodies := by
  obtain ⟨s, outs, hrun, honce, -, -, hshard⟩ := executed_at_most_once noScores 2 (fun _ => 4) lateUpdate
    [[bytes "set", bytes "k", bytes "v"], [bytes "get", bytes "k"]]
  have houts : outs = [unreachable, frameOf (Value.str (bytes "v")).encode] :=
    (Option.some.inj (congrArg (Option.map Prod.snd) hrun)).symm
  have htags : s.log.filterMap Done.tag? = [(0, 0), (1, 0)] :=
    (Option.some.inj (congrArg (Option.map fun r => r.1.log.filterMap Done.tag?) hrun)).symm
  have hevents : eventsAt 0 s.log = [.processTimers 10 10, .execute 20 20 [bytes "set", bytes "k", bytes "v"],
      .execute 30 30 [bytes "get", bytes "k"]] :=
    (Option.some.inj (congrArg (Option.map fun r => eventsAt 0 r.1.log) hrun)).symm
  have hclock : ClockFrom 0 (eventsAt 0 s.log) := by
    rw [hevents]
    exact ⟨by decide, by decide, by decide, trivial⟩
  obtain ⟨bodies, -, -, -, hadmits, -⟩ := hshard 0 hclock
  exact ⟨s, outs, hrun, houts, htags, honce, bodies, hadmits⟩

end ApexDB
