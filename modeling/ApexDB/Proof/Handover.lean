import ApexDB.KvStore

/-!
# What a command hands over does not depend on what waits

A command may hand an entry over to the pool. It puts it behind the works that wait already and
never looks at those: **with any works in front it does the same** (`Hands`). One rule for each
way in which commands are put together, and then one line or a few for each command.

This is what separates the store from its pool. A proof about commands may take the queue to be
empty, and a proof about threads may take the works that a command has added, without either of
them looking into the other.
-/

set_option autoImplicit false

namespace ApexDB

open Lib

variable {α β : Type}

/-- With these works in front of those that wait. -/
def Store.behind (st : Store) (works : List EntryId) : Store := { st with queue := works ++ st.queue }

/-! ## 1. The rules

A function of the store is either a step that returns something or a step that returns nothing,
and they are put together by `bind`, by a test and by reading a field. All of these keep the
property, provided that what is read is not the queue.
-/

/-- The works that wait are left in front, and not looked at. -/
def Hands (f : Store → Option (Store × α)) : Prop :=
  ∀ q st, f (st.behind q) = (f st).map fun r => (r.1.behind q, r.2)

def HandsOn (f : Store → Option Store) : Prop :=
  ∀ q st, f (st.behind q) = (f st).map fun st' => st'.behind q

theorem Hands.pure (a : α) : Hands fun st => some (st, a) := fun _ _ => rfl

theorem Hands.bind {f : Store → Option (Store × α)} {g : Store × α → Option (Store × β)} (hf : Hands f)
    (hg : ∀ a, Hands fun st => g (st, a)) : Hands fun st => (f st).bind g := by
  intro q st
  dsimp only
  rw [hf q st]
  cases f st with
  | none => rfl
  | some r => exact hg r.2 q r.1

theorem Hands.bindOn {f : Store → Option Store} {g : Store → Option (Store × β)} (hf : HandsOn f) (hg : Hands g) :
    Hands fun st => (f st).bind g := by
  intro q st
  dsimp only
  rw [hf q st]
  cases f st with
  | none => rfl
  | some st' => exact hg q st'

theorem HandsOn.bind {f g : Store → Option Store} (hf : HandsOn f) (hg : HandsOn g) :
    HandsOn fun st => (f st).bind g := by
  intro q st
  dsimp only
  rw [hf q st]
  cases f st with
  | none => rfl
  | some st' => exact hg q st'

theorem Hands.read {x : Store → Option β} (hx : ∀ q st, x (Store.behind st q) = x st)
    {f : Store → β → Option (Store × α)} (hf : ∀ b, Hands fun st => f st b) :
    Hands fun st => (x st).bind (f st) := by
  intro q st
  dsimp only
  rw [hx q st]
  cases x st with
  | none => rfl
  | some b => exact hf b q st

theorem HandsOn.read {x : Store → Option β} (hx : ∀ q st, x (Store.behind st q) = x st)
    {f : Store → β → Option Store} (hf : ∀ b, HandsOn fun st => f st b) :
    HandsOn fun st => (x st).bind (f st) := by
  intro q st
  dsimp only
  rw [hx q st]
  cases x st with
  | none => rfl
  | some b => exact hf b q st

theorem Hands.ite (p : Store → Prop) [∀ st, Decidable (p st)] (hp : ∀ q st, p (Store.behind st q) ↔ p st)
    {f g : Store → Option (Store × α)} (hf : Hands f) (hg : Hands g) :
    Hands fun st => if p st then f st else g st := by
  intro q st
  dsimp only
  by_cases h : p st
  · rw [if_pos h, if_pos ((hp q st).mpr h), hf]
  · rw [if_neg h, if_neg (mt (hp q st).mp h), hg]

theorem HandsOn.ite (p : Store → Prop) [∀ st, Decidable (p st)] (hp : ∀ q st, p (Store.behind st q) ↔ p st)
    {f g : Store → Option Store} (hf : HandsOn f) (hg : HandsOn g) :
    HandsOn fun st => if p st then f st else g st := by
  intro q st
  dsimp only
  by_cases h : p st
  · rw [if_pos h, if_pos ((hp q st).mpr h), hf]
  · rw [if_neg h, if_neg (mt (hp q st).mp h), hg]

/-! ## 2. Parts of commands

Only `entry_del` writes to the queue. The others do not mention it, which is why most of these
are by definition.
-/

theorem handsOn_heapDelete (pos : Nat) : HandsOn fun st => heapDelete st pos := by
  refine .read (fun _ _ => rfl) fun back => .ite _ (fun _ _ => Iff.rfl) (fun _ _ => rfl) ?_
  refine .ite _ (fun _ _ => Iff.rfl) ?_ (fun _ _ => rfl)
  exact .read (fun _ _ => rfl) fun r => fun _ _ => rfl

theorem handsOn_heapUpsert (pos : Option Nat) (t : HeapItem) : HandsOn fun st => heapUpsert st pos t :=
  .read (fun _ _ => rfl) fun _ _ _ => rfl

theorem handsOn_entrySetTtl (clk : Nat) (e : EntryId) (ttl : Int) : HandsOn fun st => entrySetTtl clk st e ttl := by
  refine .ite _ (fun _ _ => Iff.rfl) ?_ (.ite _ (fun _ _ => Iff.rfl) ?_ fun _ _ => rfl)
  · intro q st
    exact (handsOn_heapDelete ((st.refs e).getD 0)).bind (fun _ _ => rfl) q st
  · intro q st
    exact handsOn_heapUpsert (st.refs e) _ q st

theorem handsOn_entryDelSync (e : EntryId) : HandsOn fun st => entryDelSync st e :=
  .read (fun _ _ => rfl) fun _ => .read (fun _ _ => rfl) fun _ => .read (fun _ _ => rfl) fun _ =>
    .read (fun _ _ => rfl) fun _ _ _ => rfl

/-- The one place where a work is handed over. -/
theorem handsOn_entryDel (e : EntryId) : HandsOn fun st => entryDel st e := by
  refine (handsOn_entrySetTtl 0 e (-1)).bind (.read (fun _ _ => rfl) fun ent => ?_)
  refine .ite _ (fun _ _ => Iff.rfl) ?_ (handsOn_entryDelSync e)
  intro q st
  simp [Store.behind]

theorem hands_dbLookup (key : Bytes) : Hands fun st => dbLookup st key :=
  .read (fun _ _ => rfl) fun _ _ _ => rfl

theorem hands_dbDelete (key : Bytes) : Hands fun st => dbDelete st key :=
  .read (fun _ _ => rfl) fun _ _ _ => rfl

theorem hands_dbInsert (ent : Entry) : Hands fun st => dbInsert st ent :=
  .read (fun _ _ => rfl) fun _ _ _ => rfl

theorem Hands.entry (e : EntryId) {f : Store → Entry → Option (Store × α)} (hf : ∀ ent, Hands fun st => f st ent) :
    Hands fun st => (st.ents.read e).bind (f st) :=
  .read (fun _ _ => rfl) hf

theorem handsOn_write (e : EntryId) (ent : Entry) :
    HandsOn fun st => (st.ents.write e ent).bind fun ents => some { st with ents := ents } :=
  .read (fun _ _ => rfl) fun _ _ _ => rfl

/-! ## 3. Commands

Each follows its `do` block with the rules above, one rule for one line of it.
-/

section Commands

variable (strtod : Bytes → StrtodResult) (clk : Nat) (out : Buffer)

theorem hands_doGet (key : Bytes) : Hands fun st => doGet st key out := by
  refine (hands_dbLookup key).bind fun found => ?_
  cases found with
  | none => exact .pure _
  | some e => exact .entry e fun ent => .ite _ (fun _ _ => Iff.rfl) (.pure _) (.pure _)

theorem hands_doSet (key val : Bytes) : Hands fun st => doSet st key val out := by
  refine (hands_dbLookup key).bind fun found => ?_
  cases found with
  | none => exact (hands_dbInsert _).bind fun e => .bindOn (handsOn_entrySetTtl 0 e (-1)) (.pure _)
  | some e =>
    refine .entry e fun ent => .ite _ (fun _ _ => Iff.rfl) (.pure _) ?_
    refine .read (fun _ _ => rfl) fun ents => .bindOn ?_ (.pure _)
    exact fun q st => handsOn_entrySetTtl 0 e (-1) q { st with ents := ents }

theorem hands_doDel (key : Bytes) : Hands fun st => doDel st key out := by
  refine (hands_dbDelete key).bind fun found => ?_
  cases found with
  | none => exact .pure _
  | some e => exact .bindOn (handsOn_entryDel e) (.pure _)

theorem hands_doExpire (key arg : Bytes) : Hands fun st => doExpire clk st key arg out := by
  unfold doExpire
  cases str2int arg with
  | none => exact .pure _
  | some ttl =>
    refine (hands_dbLookup key).bind fun found => ?_
    cases found with
    | none => exact .pure _
    | some e =>
      refine .ite _ (fun _ _ => Iff.rfl) ?_ (.bindOn (handsOn_entrySetTtl clk e ttl) (.pure _))
      exact (hands_dbDelete key).bind fun _ => .bindOn (handsOn_entryDel e) (.pure _)

theorem hands_doTtl (key : Bytes) : Hands fun st => doTtl clk st key out := by
  refine (hands_dbLookup key).bind fun found => ?_
  cases found with
  | none => exact .pure _
  | some e =>
    intro q st
    have hrefs : (st.behind q).refs = st.refs := rfl
    have hheap : (st.behind q).heap = st.heap := rfl
    simp only [hrefs, hheap]
    cases st.refs e with
    | none => rfl
    | some idx =>
      dsimp only
      cases st.heap[idx]? <;> rfl

theorem hands_doKeys : Hands fun st => doKeys st out :=
  .read (fun _ _ => rfl) fun _ => .read (fun _ _ => rfl) fun _ => .pure _

theorem hands_doExists (key : Bytes) : Hands fun st => doExists st key out :=
  (hands_dbLookup key).bind fun _ => .pure _

theorem hands_doType (key : Bytes) : Hands fun st => doType st key out := by
  refine (hands_dbLookup key).bind fun found => ?_
  cases found with
  | none => exact .pure _
  | some e => exact .entry e fun _ => .pure _

theorem hands_doPersist (key : Bytes) : Hands fun st => doPersist st key out := by
  refine (hands_dbLookup key).bind fun found => ?_
  cases found with
  | none => exact .pure _
  | some e =>
    exact .ite _ (fun _ _ => Iff.rfl) (.bindOn (handsOn_entrySetTtl 0 e (-1)) (.pure _)) (.pure _)

theorem hands_doIncr (key : Bytes) : Hands fun st => doIncr st key out := by
  refine (hands_dbLookup key).bind fun found => ?_
  cases found with
  | none => exact (hands_dbInsert _).bind fun _ => .pure _
  | some e =>
    refine .entry e fun ent => .ite _ (fun _ _ => Iff.rfl) (.pure _) ?_
    cases str2int ent.str with
    | none => exact .pure _
    | some value =>
      exact .ite _ (fun _ _ => Iff.rfl) (.pure _) (.read (fun _ _ => rfl) fun _ _ _ => rfl)

theorem hands_doZadd (key arg name : Bytes) : Hands fun st => doZadd strtod st key arg name out := by
  unfold doZadd
  cases str2dbl strtod arg with
  | none => exact .pure _
  | some score =>
    refine (hands_dbLookup key).bind fun found => .bind ?entry fun e => .entry e fun ent =>
      .ite _ (fun _ _ => Iff.rfl) (.pure _) ?_
    case entry =>
      cases found with
      | none => exact hands_dbInsert _
      | some e => exact .pure e
    exact .read (fun _ _ => rfl) fun r => .read (fun _ _ => rfl) fun _ _ _ => rfl

theorem hands_expectZset (key : Bytes) : Hands fun st => expectZset st key := by
  refine (hands_dbLookup key).bind fun found => ?_
  cases found with
  | none => exact .pure _
  | some e => exact .entry e fun _ => .pure _

theorem handsOn_store (r : ZSetRef) (zset : ZSet) : HandsOn fun st => r.store st zset := by
  cases r with
  | entry e ent => exact handsOn_write e { ent with zset := zset }
  | _ => exact fun _ _ => rfl

theorem hands_doZrem (key name : Bytes) : Hands fun st => doZrem st key name out := by
  refine (hands_expectZset key).bind fun r => ?_
  cases r with
  | null => exact .pure _
  | _ =>
    refine .read (fun _ _ => rfl) fun x => ?_
    obtain ⟨zset, found⟩ := x
    cases found with
    | none => exact .bindOn (handsOn_store _ zset) (.pure _)
    | some znode => exact .read (fun _ _ => rfl) fun zset => .bindOn (handsOn_store _ zset) (.pure _)

theorem hands_doZscore (key name : Bytes) : Hands fun st => doZscore st key name out := by
  refine (hands_expectZset key).bind fun r => ?_
  cases r with
  | null => exact .pure _
  | _ =>
    refine .read (fun _ _ => rfl) fun x => ?_
    obtain ⟨zset, found⟩ := x
    cases found with
    | none => exact .bindOn (handsOn_store _ zset) (.pure _)
    | some znode => exact .bindOn (handsOn_store _ zset) (.read (fun _ _ => rfl) fun _ => .pure _)

theorem hands_doZquery (key arg name offArg limArg : Bytes) :
    Hands fun st => doZquery strtod st key arg name offArg limArg out := by
  unfold doZquery
  cases str2dbl strtod arg with
  | none => exact .pure _
  | some score =>
    cases str2int offArg with
    | none => exact .pure _
    | some offset =>
      cases str2int limArg with
      | none => exact .pure _
      | some limit =>
        refine (hands_expectZset key).bind fun r => ?_
        have hrest : ∀ zset : ZSet, Hands fun st => if limit ≤ 0 then some (st, outArr out 0) else
            (zqueryRange zset score name offset limit out).bind fun out => some (st, out) :=
          fun zset => .ite _ (fun _ _ => Iff.rfl) (.pure _) (.read (fun _ _ => rfl) fun _ => .pure _)
        cases r with
        | null => exact .pure _
        | emptyZset => exact hrest {}
        | entry e ent => exact hrest ent.zset

/-- **Every command** does the same with works in front, and puts what it hands over behind
them. -/
theorem hands_runCommand (cmd : Command) : Hands fun st => runCommand strtod clk st out cmd := by
  cases cmd with
  | ping arg => exact .pure _
  | «exists» key => exact hands_doExists out key
  | type key => exact hands_doType out key
  | persist key => exact hands_doPersist out key
  | incr key => exact hands_doIncr out key
  | get key => exact hands_doGet out key
  | set key val => exact hands_doSet out key val
  | del key => exact hands_doDel out key
  | pexpire key arg => exact hands_doExpire clk out key arg
  | pttl key => exact hands_doTtl clk out key
  | keys => exact hands_doKeys out
  | zadd key arg name => exact hands_doZadd strtod out key arg name
  | zrem key name => exact hands_doZrem out key name
  | zscore key name => exact hands_doZscore out key name
  | zquery key arg name offset limit => exact hands_doZquery strtod out key arg name offset limit
  | unknown => exact .pure _

end Commands

/-- A turn of `process_timers` with works in front. -/
def Turn.behind (q : List EntryId) : Turn (Store × Nat) Store → Turn (Store × Nat) Store
  | .again s => .again (s.1.behind q, s.2)
  | .done st => .done (st.behind q)

/-- **One turn of `process_timers`** does the same with works in front. -/
theorem processTimersTurn_behind (now : Nat) (q : List EntryId) (st : Store) (n : Nat) :
    processTimersTurn now (st.behind q, n) = (processTimersTurn now (st, n)).map (Turn.behind q) := by
  have hheap : (st.behind q).heap = st.heap := rfl
  have hents : (st.behind q).ents = st.ents := rfl
  have hdb : (st.behind q).db = st.db := rfl
  simp only [processTimersTurn, hheap, hents, hdb]
  cases st.heap.head? with
  | none => rfl
  | some item =>
    by_cases hdue : item.val ≤ now
    · simp only [if_pos hdue]
      cases st.ents.read item.ref with
      | none => rfl
      | some ent =>
        simp only [Option.bind_eq_bind, Option.bind_some]
        cases hmDelete st.db (strHash ent.key) fun e => e == item.ref with
        | none => rfl
        | some r =>
          obtain ⟨db, found⟩ := r
          have hdel := handsOn_entryDel item.ref q { st with db := db }
          by_cases hfound : found ≠ some item.ref
          · simp only [Option.bind_some, if_pos hfound]
            rfl
          · simp only [Option.bind_some, if_neg hfound, Store.behind] at hdel ⊢
            rw [hdel]
            cases entryDel { st with db := db } item.ref with
            | none => rfl
            | some st' =>
              by_cases hmax : kMaxWorks ≤ n
              · simp only [Option.map_some, Option.bind_some, if_pos hmax]
                rfl
              · simp only [Option.map_some, Option.bind_some, if_neg hmax]
                rfl
    · simp only [if_neg hdue]
      rfl

end ApexDB
