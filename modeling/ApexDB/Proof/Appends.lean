import ApexDB.Server
import ApexDB.Spec.Value

/-!
# What a command writes does not depend on the buffer

`execute` is handed the `outgoing` of a connection, which may hold answers that were not sent
yet. It only appends to it: **what it writes, and what becomes of the store, is the same as with
an empty buffer** (`Appends`). For most commands there is nothing to it; `keys` carries the
buffer through the walk over the tables, and `zquery` patches a number into it at an absolute
offset.

This is what lets the response of a request be spoken of at all. The event loop passes one
buffer through all requests of a connection, and everything above the store is stated with the
bytes that one request has added.
-/

set_option autoImplicit false

namespace ApexDB

open Lib

variable {α β ι : Type}

/-! ## 1. The rule

What a command does before it writes, and how it goes on afterwards, are treated once, as `bind`
and `map`; a test between two commands keeps the property.
-/

/-- The buffer is appended to, and not looked at: the result, what is added, and whether there
is a fault are those for an empty buffer. -/
def Appends (f : Buffer → Option (α × Buffer)) : Prop :=
  ∀ out, f out = (f []).map fun r => (r.1, out ++ r.2)

/-- What is written is known before. -/
theorem Appends.write (a : α) (w : Buffer → Buffer) (b : Bytes) (hw : ∀ out, w out = out ++ b) :
    Appends fun out => some (a, w out) := by
  intro out
  simp [hw]

/-- What comes before a command does not see the buffer. -/
theorem Appends.bind (x : Option β) {f : β → Buffer → Option (α × Buffer)} (h : ∀ b, Appends (f b)) :
    Appends fun out => x.bind fun b => f b out := by
  intro out
  cases x with
  | none => rfl
  | some b => exact h b out

/-- What comes after it leaves the buffer alone. -/
theorem Appends.map {f : Buffer → Option (α × Buffer)} (hf : Appends f) (g : α → β) :
    Appends fun out => (f out).bind fun r => some (g r.1, r.2) := by
  intro out
  dsimp only
  rw [hf out]
  cases f [] <;> rfl

theorem Appends.ite (p : Prop) [Decidable p] {f g : Buffer → Option (α × Buffer)} (hf : Appends f)
    (hg : Appends g) : Appends fun out => if p then f out else g out := by
  by_cases h : p
  · simpa only [if_pos h] using hf
  · simpa only [if_neg h] using hg

/-! ## 2. Walks and patches

The two ways of writing that are not an append at the end. The walk over the tables has the
buffer in its accumulator, and two walks whose accumulators correspond stay in step; a patch is
at an offset counted from the start, so that bytes in front move it along with what it patches.
-/

section Walk

variable {f : α → ι → α × Bool} {f' : β → ι → β × Bool} {g : α → β}

/-- Two walks in step: if the accumulators correspond before an element, they do after it, so
they do at the end. -/
theorem hForeachChain_map (h : ∀ a x, f' (g a) x = Prod.map g id (f a x)) :
    ∀ (chain : List (HNode ι)) (acc : α),
      hForeachChain f' (g acc) chain = Prod.map g id (hForeachChain f acc chain) := by
  intro chain
  induction chain with
  | nil => exact fun acc => rfl
  | cons node rest ih =>
    intro acc
    simp only [hForeachChain, h]
    rcases f acc node.owner with ⟨acc', more⟩
    cases more with
    | true => exact ih acc'
    | false => rfl

theorem hForeachSlots_map (h : ∀ a x, f' (g a) x = Prod.map g id (f a x)) (tab : List (List (HNode ι))) :
    ∀ (is : List Nat) (acc : α),
      hForeachSlots f' tab is (g acc) = (hForeachSlots f tab is acc).map (Prod.map g id) := by
  intro is
  induction is with
  | nil => exact fun acc => rfl
  | cons i is ih =>
    intro acc
    simp only [hForeachSlots]
    cases tab[i]? with
    | none => rfl
    | some chain =>
      simp only [Option.bind_eq_bind, Option.bind_some, hForeachChain_map h chain acc]
      rcases hForeachChain f acc chain with ⟨acc', more⟩
      cases more with
      | true => exact ih acc'
      | false => rfl

theorem hForeach_map (h : ∀ a x, f' (g a) x = Prod.map g id (f a x)) (t : HTab ι) (acc : α) :
    hForeach t f' (g acc) = (hForeach t f acc).map (Prod.map g id) := by
  unfold hForeach
  split
  · rfl
  · cases t.tab with
    | none => rfl
    | some tab => exact hForeachSlots_map h tab _ acc

theorem hmForeach_map (h : ∀ a x, f' (g a) x = Prod.map g id (f a x)) (hmap : HMap ι) (acc : α) :
    hmForeach hmap f' (g acc) = (hmForeach hmap f acc).map g := by
  simp only [hmForeach, hForeach_map h hmap.newer acc]
  cases hForeach hmap.newer f acc with
  | none => rfl
  | some r =>
    obtain ⟨acc', more⟩ := r
    cases more with
    | true =>
      simp only [Option.map_some, Prod.map, id, Option.bind_eq_bind, Option.bind_some, if_true,
        hForeach_map h hmap.older acc']
      cases hForeach hmap.older f acc' <;> rfl
    | false => rfl

end Walk

theorem bufPatch_append (out x : Buffer) (pos n : Nat) :
    bufPatch (out ++ x) (out.length + pos) n = (bufPatch x pos n).map (out ++ ·) := by
  unfold bufPatch
  rw [List.length_append]
  by_cases h : pos + 4 ≤ x.length
  · rw [if_pos h, if_pos (by omega), List.take_length_add_append, Nat.add_assoc, List.drop_length_add_append]
    simp
  · rw [if_neg h, if_neg (by omega)]
    rfl

theorem outEndArr_append (out x : Buffer) (ctx n : Nat) :
    outEndArr (out ++ x) (out.length + (ctx + 1)) n = (outEndArr x (ctx + 1) n).map (out ++ ·) := by
  have hget : (out ++ x)[out.length + ctx]? = x[ctx]? := by
    rw [List.getElem?_append_right (Nat.le_add_right _ _), Nat.add_sub_cancel_left]
  unfold outEndArr
  rw [show out.length + (ctx + 1) - 1 = out.length + ctx from rfl, Nat.add_sub_cancel, hget, bufPatch_append]
  by_cases h : x[ctx]? = some Tag.arr.byte
  · simp [h]
  · simp [h]

theorem zqueryRange_append (zset : ZSet) (score : Dbl) (name : Bytes) (offset limit : Int) (out : Buffer) :
    zqueryRange zset score name offset limit out =
      (zqueryRange zset score name offset limit []).map (out ++ ·) := by
  have hloop : ∀ (fuel : Nat) (s : Option NodeId × Int × Buffer),
      loop (zqueryTurn zset limit) fuel (s.1, s.2.1, out ++ s.2.2) =
        (loop (zqueryTurn zset limit) fuel s).map fun r => (r.1, out ++ r.2) := by
    refine fun fuel s => loop_lockstep (f := fun s : Option NodeId × Int × Buffer => (s.1, s.2.1, out ++ s.2.2))
      (fun _ => True) (fun s _ => ?_) (fun _ _ _ _ => trivial) fuel s trivial
    obtain ⟨node, n, buf⟩ := s
    cases node with
    | none => rfl
    | some node =>
      simp only [zqueryTurn]
      split
      · cases zset.nodes.read node with
        | none => rfl
        | some znode =>
          simp only [Option.bind_eq_bind, Option.bind_some]
          cases znodeOffset zset (some node) 1 with
          | none => rfl
          | some next =>
            simp only [outStr_eq, outDbl_eq, List.append_assoc]
            rfl
      · rfl
  unfold zqueryRange
  cases zsetSeekge zset score name with
  | none => rfl
  | some found =>
    simp only [Option.bind_eq_bind, Option.bind_some]
    cases znodeOffset zset found offset with
    | none => rfl
    | some start =>
      have hbegin : outBeginArr out = (out ++ (outBeginArr []).1, out.length + 1) := by
        simp [outBeginArr, length_le]
      rw [hbegin]
      simp only [Option.bind_some, hloop (limit.toNat + 1) (start, 0, (outBeginArr []).1)]
      cases loop (zqueryTurn zset limit) (limit.toNat + 1) (start, 0, (outBeginArr []).1) with
      | none => rfl
      | some r => exact outEndArr_append out r.2 0 r.1.toNat

/-! ## 3. The commands

One lemma for each kind of reply, and then each command by its branches.
-/

section Commands

variable (strtod : Bytes → StrtodResult) (clk : Nat) (st : Store)

theorem appends_int (n : Int) : Appends fun out => some (st, outInt out n) :=
  .write st _ _ fun out => outInt_eq out n

theorem appends_str (s : Bytes) : Appends fun out => some (st, outStr out s) :=
  .write st _ _ fun out => outStr_eq out s

theorem appends_err (code : ErrCode) (msg : String) :
    Appends fun out => some (st, outErr out code (bytes msg)) :=
  .write st _ _ fun out => outErr_eq out code msg

theorem appends_nil : Appends fun out => some (st, outNil out) := .write st _ _ fun out => outNil_eq out

theorem doGet_appends (key : Bytes) : Appends (doGet st key) := by
  refine .bind (dbLookup st key) fun r => ?_
  obtain ⟨st, found⟩ := r
  cases found with
  | none => exact appends_nil st
  | some e => exact .bind _ fun ent => .ite _ (appends_err st _ _) (appends_str st _)

theorem doSet_appends (key val : Bytes) : Appends (doSet st key val) := by
  refine .bind (dbLookup st key) fun r => ?_
  obtain ⟨st, found⟩ := r
  cases found with
  | none => exact .bind _ fun r => .bind _ fun st => appends_str st _
  | some e =>
    exact .bind _ fun ent => .ite _ (appends_err st _ _)
      (.bind _ fun ents => .bind _ fun st => appends_str st _)

theorem doDel_appends (key : Bytes) : Appends (doDel st key) := by
  refine .bind (dbDelete st key) fun r => ?_
  obtain ⟨st, found⟩ := r
  cases found with
  | none => exact appends_int st 0
  | some e => exact .bind _ fun st => appends_int st 1

theorem doExpire_appends (key arg : Bytes) : Appends (doExpire clk st key arg) := by
  unfold doExpire
  cases str2int arg with
  | none => exact appends_err st _ _
  | some ttl =>
    refine .bind (dbLookup st key) fun r => ?_
    obtain ⟨st, found⟩ := r
    cases found with
    | none => exact appends_int st 0
    | some e =>
      exact .ite _ (.bind _ fun r => .bind _ fun st => appends_int st 1)
        (.bind _ fun st => appends_int st 1)

theorem doTtl_appends (key : Bytes) : Appends (doTtl clk st key) := by
  refine .bind (dbLookup st key) fun r => ?_
  obtain ⟨st, found⟩ := r
  cases found with
  | none => exact appends_int st (-2)
  | some e =>
    dsimp only
    cases st.refs e with
    | none => exact appends_int st (-1)
    | some idx => exact .bind _ fun item => appends_int st _

theorem doKeys_appends : Appends (doKeys st) := by
  intro out
  have hkey : ∀ acc e, cbKeys st.ents (Option.map (out ++ ·) acc) e =
      Prod.map (Option.map (out ++ ·)) id (cbKeys st.ents acc e) := by
    intro acc e
    cases acc with
    | none => rfl
    | some buf =>
      simp only [cbKeys, Option.map_some, Option.bind_eq_bind, Option.bind_some]
      cases st.ents.read e with
      | none => rfl
      | some ent => simp [outStr_eq]
  have hwalk := hmForeach_map hkey st.db (some (outArr [] (hmSize st.db)))
  have hstart : (some (outArr [] (hmSize st.db))).map (out ++ ·) = some (outArr out (hmSize st.db)) := by
    simp [outArr]
  rw [hstart] at hwalk
  simp only [doKeys, hwalk]
  cases hmForeach st.db (cbKeys st.ents) (some (outArr [] (hmSize st.db))) with
  | none => rfl
  | some acc => cases acc <;> rfl

theorem doExists_appends (key : Bytes) : Appends (doExists st key) :=
  .bind (dbLookup st key) fun r => appends_int r.1 _

theorem doType_appends (key : Bytes) : Appends (doType st key) := by
  refine .bind (dbLookup st key) fun r => ?_
  obtain ⟨st, found⟩ := r
  cases found with
  | none => exact appends_str st _
  | some e => exact .bind _ fun ent => appends_str st _

theorem doPersist_appends (key : Bytes) : Appends (doPersist st key) := by
  refine .bind (dbLookup st key) fun r => ?_
  obtain ⟨st, found⟩ := r
  cases found with
  | none => exact appends_int st 0
  | some e => exact .ite _ (.bind _ fun st => appends_int st 1) (appends_int st 0)

theorem doIncr_appends (key : Bytes) : Appends (doIncr st key) := by
  refine .bind (dbLookup st key) fun r => ?_
  obtain ⟨st, found⟩ := r
  cases found with
  | none => exact .bind _ fun r => appends_int r.1 1
  | some e =>
    refine .bind _ fun ent => .ite _ (appends_err st _ _) ?_
    cases str2int ent.str with
    | none => exact appends_err st _ _
    | some value => exact .ite _ (appends_err st _ _) (.bind _ fun ents => appends_int _ _)

theorem doZadd_appends (key arg name : Bytes) : Appends (doZadd strtod st key arg name) := by
  unfold doZadd
  cases str2dbl strtod arg with
  | none => exact appends_err st _ _
  | some score =>
    refine .bind (dbLookup st key) fun r => .bind _ fun r => .bind _ fun ent => ?_
    exact .ite _ (appends_err r.1 _ _) (.bind _ fun r => .bind _ fun ents => appends_int _ _)

theorem doZrem_appends (key name : Bytes) : Appends (doZrem st key name) := by
  refine .bind (expectZset st key) fun r => ?_
  obtain ⟨st, ref⟩ := r
  cases ref with
  | null => exact appends_err st _ _
  | _ =>
    refine .bind _ fun r => ?_
    obtain ⟨zset, found⟩ := r
    cases found with
    | none => exact .bind _ fun st => appends_int st 0
    | some znode => exact .bind _ fun zset => .bind _ fun st => appends_int st 1

theorem doZscore_appends (key name : Bytes) : Appends (doZscore st key name) := by
  refine .bind (expectZset st key) fun r => ?_
  obtain ⟨st, ref⟩ := r
  cases ref with
  | null => exact appends_err st _ _
  | _ =>
    refine .bind _ fun r => ?_
    obtain ⟨zset, found⟩ := r
    cases found with
    | none => exact .bind _ fun st => appends_nil st
    | some znode => exact .bind _ fun st => .bind _ fun node => .write st _ _ fun out => outDbl_eq out _

theorem doZquery_appends (key arg name offArg limArg : Bytes) :
    Appends (doZquery strtod st key arg name offArg limArg) := by
  unfold doZquery
  cases str2dbl strtod arg with
  | none => exact appends_err st _ _
  | some score =>
    cases str2int offArg with
    | none => exact appends_err st _ _
    | some offset =>
      cases str2int limArg with
      | none => exact appends_err st _ _
      | some limit =>
        refine .bind (expectZset st key) fun r => ?_
        obtain ⟨st, ref⟩ := r
        have hrange : Appends fun out => do
            return (st, ← zqueryRange ref.zset score name offset limit out) := by
          intro out
          simp only [zqueryRange_append ref.zset score name offset limit out]
          cases zqueryRange ref.zset score name offset limit [] <;> rfl
        have hset : Appends fun out => if limit ≤ 0 then some (st, outArr out 0) else do
            return (st, ← zqueryRange ref.zset score name offset limit out) :=
          .ite _ (.write st _ ([Tag.arr.byte] ++ le 4 0) fun out => by simp [outArr]) hrange
        cases ref with
        | null => exact appends_err st _ _
        | emptyZset => exact hset
        | entry e ent => exact hset

theorem runCommand_appends (cmd : Command) : Appends fun out => runCommand strtod clk st out cmd := by
  cases cmd with
  | ping arg => exact appends_str st _
  | «exists» key => exact doExists_appends st key
  | type key => exact doType_appends st key
  | persist key => exact doPersist_appends st key
  | incr key => exact doIncr_appends st key
  | get key => exact doGet_appends st key
  | set key val => exact doSet_appends st key val
  | del key => exact doDel_appends st key
  | pexpire key arg => exact doExpire_appends clk st key arg
  | pttl key => exact doTtl_appends clk st key
  | keys => exact doKeys_appends st
  | zadd key arg name => exact doZadd_appends strtod st key arg name
  | zrem key name => exact doZrem_appends st key name
  | zscore key name => exact doZscore_appends st key name
  | zquery key arg name offset limit => exact doZquery_appends strtod st key arg name offset limit
  | unknown => exact appends_err st _ _

/-- **`execute` only appends**, so the event loop may hand it a buffer with earlier answers in
it. -/
theorem execute_appends (now : Nat) (cmd : List Bytes) : Appends (execute strtod now clk cmd st) :=
  .bind (expire now st) fun st => runCommand_appends strtod clk st (dispatch cmd)

end Commands

theorem Program.onRequest_appends (strtod : Bytes → StrtodResult) (program : Program) (now clk : Nat) (st : Store)
    (cmd : List Bytes) : Appends (program.onRequest strtod now clk st cmd) := by
  cases program with
  | server => exact execute_appends strtod clk st now cmd
  | shard i n => exact .ite _ (appends_err st _ _) (execute_appends strtod clk st now cmd)

end ApexDB
