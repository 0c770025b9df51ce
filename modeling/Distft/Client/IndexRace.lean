import Distft.General.Interleave
import Distft.Client.IndexCodec

/-!
# Two clients add to the index

`add_files_to_index_file` gets the index chunk, appends its names, and sets the result. Nothing
connects the two steps, so a call that sets between another call's `get` and `set` is overwritten.

A call is a `DhtProgram`, which does one `get` or `set` at a time: run against a session it is
`add_files_to_index_file` (`exec_addFilesProgram`), and on a map two of them interleave in any order
(`addBoth`). `surviving` is what the two calls leave behind in the index, by the order of their
steps, and `indexComplete_iff` says when the index then lists every name.
-/

namespace Distft

/-- A program that accesses the DHT by one `get` or `set` after the other. -/
inductive DhtProgram (α : Type) where
  /-- The program returns. -/
  | done (value : α)
  /-- `get`, and what follows for the value that it finds. -/
  | get (key : Key) (next : Option Bytes → DhtProgram α)
  /-- `set`, and what follows. -/
  | set (key : Key) (data : Bytes) (force : Bool) (next : DhtProgram α)

namespace DhtProgram

variable {α ε σ : Type}

/-- The program with a session. -/
def exec (s : Dht ε σ) : DhtProgram α → Exec ε Fault σ α
  | done value => return value
  | get key next => do exec s (next (← s.get key))
  | set key data force next => do
    s.set key data force
    exec s next

/-- One access to a map. -/
def step (values : Key → Option Bytes) : DhtProgram α → (Key → Option Bytes) × DhtProgram α
  | done value => (values, done value)
  | get key next => (values, next (values key))
  | set key data _ next => (Function.update values key (some data), next)

/-- A program that has returned stands still. -/
theorem finished_done (value : α) : Interleave.Finished step (done value) := fun _ => rfl

end DhtProgram

namespace Platform

variable (P : Platform)

/-- `add_files_to_index_file`, access by access. -/
def addFilesProgram (files : List Bytes) : DhtProgram Bool :=
  .get P.indexKey fun
    | none => .done false
    | some data => .set P.indexKey (data ++ Records.encode 0 files) true (.done true)

/-- With a session the program is `add_files_to_index_file`. -/
theorem exec_addFilesProgram {ε σ : Type} (s : Dht ε σ) (files : List Bytes) :
    (P.addFilesProgram files).exec s = P.addFilesToIndexFile s files := by
  unfold addFilesProgram addFilesToIndexFile DhtProgram.exec
  congr 1
  funext data
  cases data <;> rfl

/-- Two calls, `false` and `true`, before their first steps. -/
def addBoth (values : Key → Option Bytes) (files : Bool → List Bytes) :
    Interleave.State Bool (Key → Option Bytes) (DhtProgram Bool) :=
  ⟨values, fun call => P.addFilesProgram (files call)⟩

/-- The two calls after some of their steps, in the order of the schedule. -/
def addInterleaved (values : Key → Option Bytes) (files : Bool → List Bytes) (schedule : List Bool) :
    Interleave.State Bool (Key → Option Bytes) (DhtProgram Bool) :=
  Runs.run (Interleave.next DhtProgram.step) (P.addBoth values files) schedule

/-- Both calls have returned true. -/
def BothReturned (s : Interleave.State Bool (Key → Option Bytes) (DhtProgram Bool)) : Prop :=
  ∀ call, s.threads call = .done true

end Platform

/-- The names that two calls leave behind in the index, by the order of their steps: those of both
where one call sets before the other gets, and else those of the call that sets last. -/
def surviving (files : Bool → List Bytes) : List Bool → List Bytes
  | first :: second :: rest =>
    if second = first then files first ++ files (!first)
    else match rest with
      | [] => []
      | setsFirst :: _ => files (!setsFirst)
  | _ => []

/-- One call sets before the other gets. -/
theorem surviving_after (files : Bool → List Bytes) (first : Bool) (rest : List Bool) :
    surviving files (first :: first :: rest) = files first ++ files (!first) := if_pos rfl

/-- Both calls get before one sets. -/
theorem surviving_between (files : Bool → List Bytes) (first setsFirst : Bool) (rest : List Bool) :
    surviving files (first :: (!first) :: setsFirst :: rest) = files (!setsFirst) :=
  if_neg (by simp)

/-- No other names survive. -/
theorem mem_surviving {files : Bool → List Bytes} {schedule : List Bool} {name : Bytes}
    (h : name ∈ surviving files schedule) : ∃ call, name ∈ files call := by
  match schedule with
  | [] => exact absurd h List.not_mem_nil
  | [_] => exact absurd h List.not_mem_nil
  | first :: second :: rest =>
    by_cases hsame : second = first
    · rw [hsame, surviving_after] at h
      exact (List.mem_append.1 h).elim (⟨_, ·⟩) (⟨_, ·⟩)
    · obtain rfl : second = !first := by revert hsame; cases first <;> cases second <;> decide
      cases rest with
      | nil => cases first <;> exact absurd h List.not_mem_nil
      | cons setsFirst rest =>
        rw [surviving_between] at h
        exact ⟨_, h⟩

namespace Platform

variable (P : Platform)

/-- A call between its `get` and its `set`. -/
def pendingSet (data : Bytes) (files : List Bytes) : DhtProgram Bool :=
  .set P.indexKey (data ++ Records.encode 0 files) true (.done true)

/-- A call that gets the index is about to set it. -/
theorem step_addFilesProgram {values : Key → Option Bytes} {data : Bytes}
    (hdata : values P.indexKey = some data) (files : List Bytes) :
    DhtProgram.step values (P.addFilesProgram files) = (values, P.pendingSet data files) := by
  simp [addFilesProgram, pendingSet, DhtProgram.step, hdata]

/-- A call that finds no index returns false. -/
theorem step_addFilesProgram_none {values : Key → Option Bytes}
    (hnone : values P.indexKey = none) (files : List Bytes) :
    DhtProgram.step values (P.addFilesProgram files) = (values, .done false) := by
  simp [addFilesProgram, DhtProgram.step, hnone]

/-- The `set` of a call. -/
theorem step_pendingSet (values : Key → Option Bytes) (data : Bytes) (files : List Bytes) :
    DhtProgram.step values (P.pendingSet data files) =
      (Function.update values P.indexKey (some (data ++ Records.encode 0 files)), .done true) := rfl

/-- A call that is about to set the index and has returned has set it. -/
theorem alone_pendingSet {n : ℕ} {values : Key → Option Bytes} {data : Bytes} {files : List Bytes}
    (h : (Interleave.alone DhtProgram.step n values (P.pendingSet data files)).2 = .done true) :
    (Interleave.alone DhtProgram.step n values (P.pendingSet data files)).1 P.indexKey =
      some (data ++ Records.encode 0 files) := by
  cases n with
  | zero => exact nomatch h
  | succ n =>
    unfold Interleave.alone
    rw [step_pendingSet, Interleave.alone_of_finished (DhtProgram.finished_done true)]
    exact Function.update_self ..

/-- A call that runs alone and has returned has appended its names. -/
theorem alone_addFilesProgram {n : ℕ} {values : Key → Option Bytes} {data : Bytes}
    {files : List Bytes} (hdata : values P.indexKey = some data)
    (h : (Interleave.alone DhtProgram.step n values (P.addFilesProgram files)).2 = .done true) :
    (Interleave.alone DhtProgram.step n values (P.addFilesProgram files)).1 P.indexKey =
      some (data ++ Records.encode 0 files) := by
  cases n with
  | zero => exact nomatch h
  | succ n =>
    unfold Interleave.alone at h ⊢
    rw [P.step_addFilesProgram hdata] at h ⊢
    exact P.alone_pendingSet h

/-- A call that finds no index has returned false, and stays so. -/
theorem not_bothReturned {values : Key → Option Bytes} (hnone : values P.indexKey = none)
    (files : Bool → List Bytes) (schedule : List Bool) :
    ¬BothReturned (P.addInterleaved values files schedule) := by
  intro h
  cases schedule with
  | nil => exact nomatch h true
  | cons call schedule =>
    have hfirst : (Interleave.next DhtProgram.step (P.addBoth values files) call).threads call =
        .done false := by
      rw [Interleave.next_threads_self]
      exact congrArg Prod.snd (P.step_addFilesProgram_none hnone (files call))
    have hfinished := DhtProgram.finished_done false
    rw [← hfirst] at hfinished
    -- A call that is finished takes no further step.
    have hstays := Interleave.run_of_finished hfinished schedule
    have htrue := h call
    unfold addInterleaved at htrue
    rw [Runs.run_cons, hstays, hfirst] at htrue
    exact nomatch htrue

/-- Two calls of which one is through: the other appends its names to what the first has set. -/
theorem index_of_through {s : Interleave.State Bool (Key → Option Bytes) (DhtProgram Bool)}
    {call : Bool} {data : Bytes} {files : List Bytes} (hthrough : s.threads call = .done true)
    (hwaits : s.threads (!call) = P.addFilesProgram files) (hdata : s.shared P.indexKey = some data)
    (schedule : List Bool)
    (h : BothReturned (Runs.run (Interleave.next DhtProgram.step) s schedule)) :
    (Runs.run (Interleave.next DhtProgram.step) s schedule).shared P.indexKey =
      some (data ++ Records.encode 0 files) := by
  -- From here on only the other call takes steps that count.
  have hothers : ∀ j, j ≠ !call → Interleave.Finished DhtProgram.step (s.threads j) := by
    intro j hj
    obtain rfl : j = call := by revert hj; cases j <;> cases call <;> decide
    rw [hthrough]
    exact DhtProgram.finished_done true
  obtain ⟨hshared, hthread⟩ := Interleave.run_alone hothers schedule
  have hreturned := h (!call)
  rw [hthread, hwaits] at hreturned
  rw [hshared, hwaits]
  exact P.alone_addFilesProgram hdata hreturned

/-- Two calls that have got the same index: what the first of them sets is lost. -/
theorem index_of_pending {s : Interleave.State Bool (Key → Option Bytes) (DhtProgram Bool)}
    {data : Bytes} {files : Bool → List Bytes}
    (hpending : ∀ call, s.threads call = P.pendingSet data (files call)) (setsFirst : Bool)
    (schedule : List Bool)
    (h : BothReturned (Runs.run (Interleave.next DhtProgram.step) s (setsFirst :: schedule))) :
    (Runs.run (Interleave.next DhtProgram.step) s (setsFirst :: schedule)).shared P.indexKey =
      some (data ++ Records.encode 0 (files (!setsFirst))) := by
  rw [Runs.run_cons] at h ⊢
  obtain ⟨-, hset⟩ := Interleave.next_of_step rfl (hpending setsFirst)
    (P.step_pendingSet s.shared data (files setsFirst))
  have hwaits : (Interleave.next DhtProgram.step s setsFirst).threads (!setsFirst) =
      P.pendingSet data (files (!setsFirst)) := by
    rw [Interleave.next_threads_of_ne (by simp), hpending]
  generalize Interleave.next DhtProgram.step s setsFirst = s' at *
  have hothers : ∀ j, j ≠ !setsFirst → Interleave.Finished DhtProgram.step (s'.threads j) := by
    intro j hj
    obtain rfl : j = setsFirst := by revert hj; cases j <;> cases setsFirst <;> decide
    rw [hset]
    exact DhtProgram.finished_done true
  obtain ⟨hshared, hthread⟩ := Interleave.run_alone hothers schedule
  have hreturned := h (!setsFirst)
  rw [hthread, hwaits] at hreturned
  rw [hshared, hwaits]
  exact P.alone_pendingSet hreturned

/-- What the index is when both calls have returned. -/
theorem addInterleaved_index {values : Key → Option Bytes} {data : Bytes}
    (hdata : values P.indexKey = some data) (files : Bool → List Bytes) (schedule : List Bool)
    (h : BothReturned (P.addInterleaved values files schedule)) :
    (P.addInterleaved values files schedule).shared P.indexKey =
      some (data ++ Records.encode 0 (surviving files schedule)) := by
  unfold addInterleaved at h ⊢
  -- By the first two steps, which decide whether both calls read the same index.
  match schedule with
  | [] => exact nomatch h true
  | [first] =>
    have hwaits := h (!first)
    rw [Runs.run_cons, Runs.run_nil, Interleave.next_threads_of_ne (by simp)] at hwaits
    exact nomatch hwaits
  | first :: second :: rest =>
    rw [Runs.run_cons, Runs.run_cons] at h ⊢
    obtain ⟨hshared1, hthread1⟩ := Interleave.next_of_step (s := P.addBoth values files)
      (i := first) rfl rfl (P.step_addFilesProgram hdata (files first))
    have hwaits1 : (Interleave.next DhtProgram.step (P.addBoth values files) first).threads (!first)
        = P.addFilesProgram (files (!first)) := Interleave.next_threads_of_ne (by simp)
    generalize Interleave.next DhtProgram.step (P.addBoth values files) first = s1 at *
    by_cases hsame : second = first
    · -- One call is through before the other begins.
      subst hsame
      obtain ⟨hshared2, hthread2⟩ := Interleave.next_of_step hshared1 hthread1
        (P.step_pendingSet values data (files second))
      have hwaits2 : (Interleave.next DhtProgram.step s1 second).threads (!second) =
          P.addFilesProgram (files (!second)) := by
        rw [Interleave.next_threads_of_ne (by simp), hwaits1]
      have hdata2 : (Interleave.next DhtProgram.step s1 second).shared P.indexKey =
          some (data ++ Records.encode 0 (files second)) := by
        rw [hshared2, Function.update_self]
      rw [surviving_after, Records.encode_append, ← List.append_assoc]
      exact P.index_of_through hthread2 hwaits2 hdata2 rest h
    · -- Both calls get the same index.
      obtain rfl : second = !first := by revert hsame; cases first <;> cases second <;> decide
      obtain ⟨-, hthread2⟩ := Interleave.next_of_step hshared1 hwaits1
        (P.step_addFilesProgram hdata (files (!first)))
      have hwaits2 : (Interleave.next DhtProgram.step s1 (!first)).threads first =
          P.pendingSet data (files first) := by
        rw [Interleave.next_threads_of_ne (by simp), hthread1]
      have hpending : ∀ call, (Interleave.next DhtProgram.step s1 (!first)).threads call =
          P.pendingSet data (files call) := by
        intro call
        by_cases hcall : call = first
        · rw [hcall, hwaits2]
        · obtain rfl : call = !first := by revert hcall; cases call <;> cases first <;> decide
          exact hthread2
      cases rest with
      | nil => exact nomatch (hpending true).symm.trans (h true)
      | cons setsFirst rest =>
        rw [surviving_between]
        exact P.index_of_pending hpending setsFirst rest h

/-! ## What the index lists -/

/-- `get_index_files` lists the name. -/
def Lists (values : Key → Option Bytes) (name : Bytes) : Prop :=
  ∃ names, (P.getIndexFiles Dht.map values).result = .ok (some names) ∧ name ∈ names

/-- The index lists the records that are not empty, unless it is too long to be read. -/
theorem lists_iff {values : Key → Option Bytes} {data : Bytes}
    (hdata : values P.indexKey = some data) (name : Bytes) :
    P.Lists values name ↔ data.length < 2^31 ∧ name ≠ [] ∧ name ∈ Records.decode 0 [] data := by
  unfold Lists
  by_cases hlen : data.length < 2^31
  · rw [getIndexFiles_run hdata hlen, and_iff_right hlen]
    simp [List.length_pos_iff, and_comm]
  · rw [getIndexFiles_of_le hdata (Nat.le_of_not_lt hlen)]
    refine iff_of_false ?_ fun h => hlen h.1
    rintro ⟨names, hnames, -⟩
    exact nomatch hnames

/-! ## No lost update -/

/-- When both calls have returned true, the index lists every name that was there before, and every
name of both calls. -/
def IndexComplete (values : Key → Option Bytes) (files : Bool → List Bytes) (schedule : List Bool) :
    Prop :=
  BothReturned (P.addInterleaved values files schedule) →
    ∀ name, P.Lists values name ∨ (∃ call, name ∈ files call) →
      P.Lists (P.addInterleaved values files schedule).shared name

end Platform

/-- Each name of the two calls can be listed, and is among the names of the index as it was before or
among those that survive, of which the first continues what the index ended with; and the index does
not become too long. -/
def AllSurvive (data : Bytes) (files : Bool → List Bytes) (schedule : List Bool) : Prop :=
  ∀ call, ∀ name ∈ files call, name ≠ [] ∧ 0 ∉ name ∧
    name ∈ Records.decode 0 [] data ++
      Records.continued (Records.unterminated 0 [] data) (surviving files schedule) ∧
    data.length + (Records.encode 0 (surviving files schedule)).length < 2^31

namespace Platform

variable (P : Platform)

/-- What the index lists when both calls have returned, where no name of theirs has a NUL. -/
theorem addInterleaved_lists_iff {values : Key → Option Bytes} {data : Bytes}
    (hdata : values P.indexKey = some data) {files : Bool → List Bytes} {schedule : List Bool}
    (h : BothReturned (P.addInterleaved values files schedule))
    (hfree : ∀ call, ∀ name ∈ files call, 0 ∉ name) (name : Bytes) :
    P.Lists (P.addInterleaved values files schedule).shared name ↔
      data.length + (Records.encode 0 (surviving files schedule)).length < 2^31 ∧ name ≠ [] ∧
        name ∈ Records.decode 0 [] data ++
          Records.continued (Records.unterminated 0 [] data) (surviving files schedule) := by
  have hsurviving : ∀ r ∈ surviving files schedule, (0 : UInt8) ∉ r := by
    intro r hr
    obtain ⟨call, hr⟩ := mem_surviving hr
    exact hfree call r hr
  rw [P.lists_iff (P.addInterleaved_index hdata files schedule h), List.length_append,
    Records.decode_append, Records.decode_encode_continued 0 _ _ hsurviving]

/-- No name is lost when two calls interleave if and only if, where both return true, all their names
survive. -/
theorem indexComplete_iff (values : Key → Option Bytes) (files : Bool → List Bytes)
    (schedule : List Bool) :
    P.IndexComplete values files schedule ↔
      ∀ data, values P.indexKey = some data →
        BothReturned (P.addInterleaved values files schedule) →
          AllSurvive data files schedule := by
  unfold IndexComplete
  constructor
  · intro hcomplete data hdata hreturned call name hname
    have hlists : ∀ call, ∀ name ∈ files call,
        P.Lists (P.addInterleaved values files schedule).shared name :=
      fun call name hname => hcomplete hreturned name (.inr ⟨call, hname⟩)
    have hindex := P.addInterleaved_index hdata files schedule hreturned
    -- A name with a NUL is never listed.
    have hfree : ∀ call, ∀ name ∈ files call, 0 ∉ name := by
      intro call name hname
      have hdecoded := ((P.lists_iff hindex name).1 (hlists call name hname)).2.2
      exact Records.notMem_of_mem_decode List.not_mem_nil hdecoded
    obtain ⟨hlen, hne, hmem⟩ :=
      (P.addInterleaved_lists_iff hdata hreturned hfree name).1 (hlists call name hname)
    exact ⟨hne, hfree call name hname, hmem, hlen⟩
  · intro hsurvive hreturned name hname
    cases hdata : values P.indexKey with
    | none => exact absurd hreturned (P.not_bothReturned hdata files schedule)
    | some data =>
      have hall := hsurvive data hdata hreturned
      have hfree : ∀ call, ∀ name ∈ files call, 0 ∉ name :=
        fun call name hname => (hall call name hname).2.1
      rw [P.addInterleaved_lists_iff hdata hreturned hfree]
      rcases hname with hbefore | ⟨call, hname⟩
      · obtain ⟨hlen, hne, hmem⟩ := (P.lists_iff hdata name).1 hbefore
        refine ⟨?_, hne, List.mem_append_left _ hmem⟩
        -- The index grows only by names of the calls.
        by_cases hnone : surviving files schedule = []
        · rw [hnone]
          exact hlen
        · obtain ⟨r, hr⟩ := List.exists_mem_of_ne_nil _ hnone
          obtain ⟨call, hr⟩ := mem_surviving hr
          exact (hall call r hr).2.2.2
      · obtain ⟨hne, -, hmem, hlen⟩ := hall call name hname
        exact ⟨hlen, hne, hmem⟩

/-- Two clients that store a file each, at the same time, in an empty index. -/
theorem not_indexComplete :
    ¬∀ (P : Platform) values files schedule, P.IndexComplete values files schedule := by
  intro h
  let P : Platform := ⟨fun _ => Vector.replicate 20 0, id, fun _ => .rfl⟩
  let values : Key → Option Bytes := fun _ => some []
  let files : Bool → List Bytes := fun call => if call then [text "b"] else [text "a"]
  have hreturned : BothReturned (P.addInterleaved values files [false, true, false, true]) := by
    intro call
    cases call <;> rfl
  have hall := (P.indexComplete_iff values files _).1 (h P values files _) [] rfl hreturned
  exact absurd (hall false (text "a") List.mem_cons_self).2.2.1 (by decide)

end Platform

end Distft
