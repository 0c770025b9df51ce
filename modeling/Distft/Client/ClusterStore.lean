import Mathlib.Tactic.IntervalCases
import Distft.Client.Desk
import Distft.Session.Churn

/-!
# The file store on a cluster that changes

The daemon over the sessions of a town, where each `get` and each `set` of it goes to a session that
is picked for it, and members join and crash in between. As long as one node lives throughout, and
no more than `PEER_LOOKUP_ALPHA` nodes join, the town runs as a map does: what the map has is at the
live nodes, at all but the few that came later, and nobody has anything else (`Agrees`). A `set`
without `force` leaves a value that is there, so it has to come with the same one; the file store
makes such sets only of chunks, under the keys of their contents (`Town.refines_map`). So the
commands answer what a plain shelf of files answers (`daemonRun_churn`).
-/

namespace Distft

open Exec

variable {n : ℕ}

namespace Town

/-! ## The town as a DHT -/

/-- What goes on around the calls of a client. -/
structure Around (n : ℕ) where
  /-- The changes before the `i`-th call. -/
  changes : ℕ → List (Change n)
  /-- The session that is picked for it. -/
  session : ℕ → Fin n

/-- How many nodes have joined before the `i`-th call. -/
def Around.joins (around : Around n) (i : ℕ) : ℕ :=
  (((List.range i).flatMap around.changes).map Change.joins).sum

variable (members : Members n) (T : Transport) (depth : ℕ) (around : Around n)

/-- A change is made; the run tells of it, and of the town in which it was. -/
def happen (change : Change n) : Exec (Town n × Change n) Fault (Town n × ℕ) (Option Bytes) :=
  fun (town, i) => ⟨[(town, change)], (after members T depth town change, i),
    (make members T depth town change).result⟩

/-- Changes are made, one after the other. -/
def happenAll : List (Change n) → Exec (Town n × Change n) Fault (Town n × ℕ) Unit
  | [] => return ()
  | change :: changes => do
    let _ ← happen members T depth change
    happenAll changes

/-- The next call of the client, after what goes on before it. -/
def call (change : Fin n → Change n) : Exec (Town n × Change n) Fault (Town n × ℕ) (Option Bytes) := do
  let i ← Exec.read Prod.snd
  happenAll members T depth (around.changes i)
  let found ← happen members T depth (change (around.session i))
  Exec.act fun (town, i) => ((), (town, i + 1))
  return found

/-- The DHT that the client has of the sessions of a town. -/
def dht : Dht (Town n × Change n) (Town n × ℕ) where
  get key := call members T depth around fun x => .get x key
  set key data force := do
    let _ ← call members T depth around fun x => .set x key data force
    return ()

variable {members T depth around} {data : Fin n → Key → Option Bytes} {town : Town n}

/-- The change was regular. -/
abbrev WasRegular (members : Members n) (T : Transport) (depth : ℕ) (made : Town n × Change n) : Prop :=
  Regular members T depth made.1 made.2

/-! ## The map and the town -/

/-- The town has what the map has: at a node that stays, and at all other live nodes but a few. -/
structure Agrees (members : Members n) (z : Fin n) (few : ℕ) (values : Key → Option Bytes)
    (data : Fin n → Key → Option Bytes) (town : Town n) : Prop where
  /-- The live nodes are together. -/
  together : Together members data town
  /-- The node is live. -/
  lives : town.serves z = true
  /-- What the map does not have, nobody has. -/
  absent : ∀ key, values key = none → ∀ y, town.serves y = true → data y key = none
  /-- What the map has is kept. -/
  present : ∀ key value, values key = some value → Kept town.serves data key value z few

variable {z : Fin n} {few : ℕ} {values : Key → Option Bytes}

/-- A change that sets nothing, and after which the node lives, keeps that. -/
theorem Agrees.change (h : Agrees members z few values data town) {change : Change n}
    (hregular : Regular members T depth town change)
    (hset : ∀ x key value force, change ≠ .set x key value force) (hz : change ≠ .crash z) :
    Agrees members z (few + change.joins) values (record data change)
      (after members T depth town change) := by
  refine ⟨(h.together.make hregular).1, ?_, fun key hnone y hy => ?_, fun key value hvalue => ?_⟩
  · cases change with
    | join x contact tempKey readings =>
      have hzx : z ≠ x := fun heq => by simp [← heq, h.lives, Regular, Enabled] at hregular
      exact (Function.update_of_ne hzx _ _).trans h.lives
    | crash x => exact (Function.update_of_ne (fun heq : z = x => hz (heq ▸ rfl)) _ _).trans h.lives
    | set x key value force => exact h.lives
    | get x key => exact h.lives
  · cases change with
    | join x contact tempKey readings =>
      by_cases hyx : y = x
      · subst hyx
        simp [record]
      · have hy' : town.serves y = true := by simpa [after, serving, hyx] using hy
        simpa [record, hyx] using h.absent key hnone y hy'
    | crash x =>
      by_cases hyx : y = x
      · subst hyx
        simp [after, serving] at hy
      · have hy' : town.serves y = true := by simpa [after, serving, hyx] using hy
        exact h.absent key hnone y hy'
    | set x key' value force => exact absurd rfl (hset x key' value force)
    | get x key' => exact h.absent key hnone y hy
  · exact (h.present key value hvalue).change hregular.1
      (fun x value' force => hset x key value' force) hz

/-- A `set` at a live node leaves the value at all live nodes, if it is forced or no other value is
there. -/
theorem Agrees.set (h : Agrees members z few values data town) {x : Fin n} {key : Key} {value : Bytes}
    {force : Bool} (hregular : Regular members T depth town (.set x key value force))
    (hvalue : force = true ∨ ∀ value', values key = some value' → value' = value) :
    Agrees members z few (Function.update values key (some value)) (setAt x force data key value)
      (after members T depth town (.set x key value force)) := by
  have hset : ∀ y, town.serves y = true → setAt x force data key value y key = some value := by
    intro y hy
    by_cases htakes : y = x ∨ force = true ∨ data y key = none
    · simp [setAt, htakes]
    · obtain ⟨-, hforce, hhas⟩ : ¬y = x ∧ ¬force = true ∧ ¬data y key = none := by
        simpa [not_or] using htakes
      obtain ⟨value', hdata⟩ := Option.ne_none_iff_exists'.1 hhas
      -- The node keeps its value, which is the one that is set.
      have hsame : setAt x force data key value y key = data y key := by simp [setAt, htakes]
      have hsome : ∃ value'', values key = some value'' := by
        rw [← Option.isSome_iff_exists, ← Option.ne_none_iff_isSome]
        exact fun hnone => hhas (h.absent key hnone y hy)
      obtain ⟨value'', hmap⟩ := hsome
      rw [hsame, hdata, (h.present key value'' hmap).only y hy value' hdata,
        (hvalue.resolve_left hforce) value'' hmap]
  have hother : ∀ key' ≠ key, ∀ y, setAt x force data key value y key' = data y key' := by
    intro key' hne y
    simp [setAt, hne.symm]
  refine ⟨(h.together.make hregular).1, h.lives, fun key' hnone y hy => ?_,
    fun key' value' hvalue' => ?_⟩
  · have hne : key' ≠ key := fun heq => by simp [heq] at hnone
    rw [Function.update_of_ne hne] at hnone
    exact (hother key' hne y).trans (h.absent key' hnone y hy)
  · by_cases hkey : key' = key
    · subst hkey
      rw [Function.update_self] at hvalue'
      obtain rfl := Option.some.inj hvalue'
      refine ⟨h.lives, hset z h.lives, fun y hy value' hdata => ?_, ?_⟩
      · exact (Option.some.inj ((hset y hy).symm.trans hdata)).symm
      · have hnobody : without town.serves (setAt x force data key' value) key' = ∅ := by
          ext y
          rw [mem_without]
          exact ⟨fun hy => by simp [hset y hy.1] at hy, fun hy => absurd hy (Finset.notMem_empty y)⟩
        show (without town.serves (setAt x force data key' value) key').card ≤ few
        rw [hnobody, Finset.card_empty]
        exact Nat.zero_le _
    · rw [Function.update_of_ne hkey] at hvalue'
      have hkept := (h.present key' value' hvalue').change hregular.1
        (fun x' value'' force' heq => hkey (Change.set.inj heq).2.1.symm) (by simp)
      exact hkept

/-- What a `get` at a live node finds is what the map has, as long as only few have nothing. -/
theorem Agrees.found (h : Agrees members z few values data town) (hfew : few ≤ peerLookupAlpha)
    {x : Fin n} (hx : town.serves x = true) {key : Key} {found : Option Bytes}
    (hfinds : Finds members town.serves data x key found) : found = values key := by
  cases hmap : values key with
  | none =>
    cases found with
    | none => rfl
    | some value =>
      obtain ⟨y, hy, hdata⟩ := hfinds.2.1 value rfl
      simp [h.absent key hmap y hy] at hdata
  | some value => exact (h.present key value hmap).finds hx (Or.inr hfew) hfinds

/-! ## Calls -/

theorem succeeds_happen {change : Change n} {i : ℕ} {Q : Town n × ℕ → Option Bytes → Prop}
    (h : Regular members T depth town change →
      ∃ found, (make members T depth town change).result = .ok found ∧
        Q (after members T depth town change, i) found) :
    Succeeds (WasRegular members T depth) (happen members T depth change) (town, i) Q :=
  fun hregular => h (hregular _ (List.mem_singleton_self _))

/-- What goes on around the client sets nothing, and one node stays. -/
structure Around.Harmless (around : Around n) (z : Fin n) : Prop where
  /-- Nothing is set. -/
  sets : ∀ i, ∀ change ∈ around.changes i, ∀ x key value force, change ≠ .set x key value force
  /-- The node does not crash. -/
  stays : ∀ i, ∀ change ∈ around.changes i, change ≠ .crash z
  /-- Few nodes join. -/
  joins : ∀ i, around.joins i ≤ peerLookupAlpha

theorem succeeds_happenAll (i : ℕ) (changes : List (Change n))
    (hset : ∀ change ∈ changes, ∀ x key value force, change ≠ .set x key value force)
    (hz : ∀ change ∈ changes, change ≠ .crash z) (h : Agrees members z few values data town) :
    Succeeds (WasRegular members T depth) (happenAll members T depth changes) (town, i) fun visit _ =>
      visit.2 = i ∧
        ∃ data', Agrees members z (few + (changes.map Change.joins).sum) values data' visit.1 := by
  induction changes generalizing data town few with
  | nil => exact succeeds_pure ⟨rfl, data, h⟩
  | cons change changes ih =>
    refine Succeeds.bind (succeeds_happen fun hregular => ?_)
    obtain ⟨-, found, hfound, -⟩ := h.together.make hregular
    have hnext := h.change hregular (hset change List.mem_cons_self) (hz change List.mem_cons_self)
    have hrest := ih (fun change' hmem => hset change' (List.mem_cons_of_mem _ hmem))
      (fun change' hmem => hz change' (List.mem_cons_of_mem _ hmem)) hnext
    rw [Nat.add_assoc] at hrest
    exact ⟨found, hfound, hrest⟩

/-- A call is made in a town that agrees with the map, and leaves one that does where the change
does. -/
theorem succeeds_call (haround : around.Harmless z) {i : ℕ}
    (h : Agrees members z (around.joins i) values data town) {change : Fin n → Change n}
    {values' : Key → Option Bytes} {Q : Option Bytes → Prop}
    (hchange : ∀ town data, Agrees members z (around.joins (i + 1)) values data town →
      Regular members T depth town (change (around.session i)) →
      ∃ found, (make members T depth town (change (around.session i))).result = .ok found ∧ Q found ∧
        ∃ data', Agrees members z (around.joins (i + 1)) values' data'
          (after members T depth town (change (around.session i)))) :
    Succeeds (WasRegular members T depth) (call members T depth around change) (town, i)
      fun visit found => visit.2 = i + 1 ∧ Q found ∧
        ∃ data', Agrees members z (around.joins (i + 1)) values' data' visit.1 := by
  have hjoins : around.joins (i + 1) = around.joins i + ((around.changes i).map Change.joins).sum := by
    simp [Around.joins, List.range_succ]
  refine Succeeds.bind (succeeds_read (Succeeds.bind ?_))
  refine (succeeds_happenAll i (around.changes i) (haround.sets i) (haround.stays i) h).mono ?_
  rintro ⟨town', _⟩ _ ⟨rfl, data', h'⟩
  rw [← hjoins] at h'
  refine Succeeds.bind (succeeds_happen fun hregular => ?_)
  obtain ⟨found, hfound, hq, hafter⟩ := hchange town' data' h' hregular
  exact ⟨found, hfound, Succeeds.bind (succeeds_act (succeeds_pure ⟨rfl, hq, hafter⟩))⟩

/-- The sets that a client may make, where some keys have fixed values: of these it sets the fixed
values without force, and all others with force. -/
def Disciplined (fixed : Key → Bytes → Prop) (key : Key) (data : Bytes) (force : Bool) : Prop :=
  (force = true ∧ ∀ value, ¬fixed key value) ∨ (force = false ∧ fixed key data)

/-- The town agrees with the map, which has fixed values only where there are some. -/
def Represents (members : Members n) (around : Around n) (z : Fin n) (fixed : Key → Bytes → Prop)
    (visit : Town n × ℕ) (values : Key → Option Bytes) : Prop :=
  (∃ data, Agrees members z (around.joins visit.2) values data visit.1) ∧
    ∀ key value value', fixed key value → values key = some value' → value' = value

variable {fixed : Key → Bytes → Prop}

/-- A `get` of the client finds what the map has. -/
theorem simulates_get (haround : around.Harmless z) (key : Key) :
    Simulates (WasRegular members T depth) (Represents members around z fixed)
      ((dht members T depth around).get key) (Dht.map.get key) := by
  refine simulates_of_succeeds ?_
  rintro ⟨town, i⟩ values ⟨⟨data, h⟩, hvalues⟩
  refine ⟨values key, rfl, ?_⟩
  have hcall : Succeeds (WasRegular members T depth) (call members T depth around fun x => .get x key)
      (town, i) fun visit found => visit.2 = i + 1 ∧ found = values key ∧
        ∃ data', Agrees members z (around.joins (i + 1)) values data' visit.1 := by
    refine succeeds_call haround h fun town' data' h' hregular => ?_
    obtain ⟨-, found, hfound, hfinds⟩ := h'.together.make hregular
    have hnext := h'.change hregular (by simp) (by simp)
    exact ⟨found, hfound, h'.found (haround.joins _) hregular.1.1 (hfinds _ key rfl), _, hnext⟩
  refine hcall.mono ?_
  rintro ⟨town', _⟩ found ⟨rfl, hfound, hafter⟩
  exact ⟨hfound, hafter, hvalues⟩

/-- A `set` of the client sets what the map sets. -/
theorem simulates_set (haround : around.Harmless z)
    (hfixed : ∀ key value value', fixed key value → fixed key value' → value' = value) {key : Key}
    {value : Bytes} {force : Bool} (hset : Disciplined fixed key value force) :
    Simulates (WasRegular members T depth) (Represents members around z fixed)
      ((dht members T depth around).set key value force) (Dht.map.set key value force) := by
  refine simulates_of_succeeds ?_
  rintro ⟨town, i⟩ values ⟨⟨data, h⟩, hvalues⟩
  have hsame : force = true ∨ ∀ value', values key = some value' → value' = value :=
    hset.imp And.left fun hfree value' => hvalues key value value' hfree.2
  have hcall : Succeeds (WasRegular members T depth)
      (call members T depth around fun x => .set x key value force) (town, i) fun visit _ =>
        visit.2 = i + 1 ∧ True ∧ ∃ data', Agrees members z (around.joins (i + 1))
          (Function.update values key (some value)) data' visit.1 := by
    refine succeeds_call haround h fun town' data' h' hregular => ?_
    obtain ⟨-, found, hfound, -⟩ := h'.together.make hregular
    exact ⟨found, hfound, trivial, _, h'.set hregular hsame⟩
  refine ⟨(), rfl, Succeeds.bind (hcall.mono ?_)⟩
  rintro ⟨town', _⟩ _ ⟨rfl, -, hafter⟩
  refine succeeds_pure ⟨rfl, hafter, ?_⟩
  intro key' v v' hv hv'
  show v' = v
  have hupdate : Function.update values key (some value) key' = some v' := hv'
  by_cases hkey : key' = key
  · subst hkey
    rw [Function.update_self] at hupdate
    obtain rfl := Option.some.inj hupdate
    rcases hset with ⟨-, hnone⟩ | ⟨-, hset⟩
    · exact absurd hv (hnone v)
    · exact hfixed key' v value hv hset
  · rw [Function.update_of_ne hkey] at hupdate
    exact hvalues key' v v' hv hupdate

/-- For a client that makes such sets, the town runs as the map does. -/
theorem refines_map (haround : around.Harmless z)
    (hfixed : ∀ key value value', fixed key value → fixed key value' → value' = value) :
    Dht.Refines (WasRegular members T depth) (Represents members around z fixed) (Disciplined fixed)
      (dht members T depth around) Dht.map :=
  ⟨simulates_get haround, fun _ _ _ hset => simulates_set haround hfixed hset⟩

end Town

/-! ## The file store -/

open Desk Town

variable {members : Members n} {T : Transport} {depth : ℕ} {town : Town n} {around : Around n}
variable {z : Fin n}

/-- The key of a piece stands for the piece. -/
def Desk.Universe.fixed (u : Universe) (P : Platform) (key : Key) (piece : Bytes) : Prop :=
  piece ∈ u.pieces ∧ P.keyFromData piece = key

/-- It does for no other one. -/
theorem Desk.Universe.Apart.fixed_unique {P : Platform} {u : Universe} (hu : u.Apart P) (key : Key)
    (piece piece' : Bytes) (h : u.fixed P key piece) (h' : u.fixed P key piece') : piece' = piece :=
  hu.sha1 (Or.inr (Or.inr h'.1)) (Or.inr (Or.inr h.1)) (h'.2.trans h.2.symm)

/-- The file store makes disciplined sets. -/
theorem Desk.Universe.Apart.disciplined {P : Platform} {u : Universe} (hu : u.Apart P) :
    u.Allowed P (Disciplined (u.fixed P)) := by
  refine ⟨fun data => Or.inl ⟨rfl, fun piece h => ?_⟩,
    fun name hname data => Or.inl ⟨rfl, fun piece h => ?_⟩,
    fun piece hpiece => Or.inr ⟨rfl, hpiece, rfl⟩⟩
  · exact hu.piece_ne_index (hu.sha1 (Or.inr (Or.inr h.1)) (Or.inl rfl) h.2 ▸ h.1)
  · exact hu.piece_ne_name piece h.1 (hu.sha1 (Or.inr (Or.inr h.1)) (Or.inr (Or.inl hname)) h.2 ▸ hname)

/-- The daemon over the sessions of a town without chunks, in which members join and crash, answers
what a plain shelf of files answers, and leaves the same files on its disk: as long as one node
lives throughout, no more than `PEER_LOOKUP_ALPHA` nodes join, the changes are regular, and names
and pieces keep apart. -/
theorem daemonRun_churn (htown : Together members (fun _ _ => none) town) (hz : town.serves z = true)
    (haround : around.Harmless z) (P : Platform) {u : Universe} (hu : u.Apart P) (disk : Disk)
    (commands : List Dispatch)
    (hwithin : Runs.AllSteps (fun desk command => (desk.perform command).2) (Within u) ⟨[], disk⟩
      (commands.takeWhile (· ≠ .exit)))
    (hregular : ∀ made ∈ (P.daemonRun (dht members T depth around) disk commands (town, 0)).events,
      Regular members T depth made.1 made.2) :
    (P.daemonRun (dht members T depth around) disk commands (town, 0)).result =
      .ok ((⟨[], disk⟩ : Desk).answers (commands.takeWhile (· ≠ .exit)),
        ((⟨[], disk⟩ : Desk).after (commands.takeWhile (· ≠ .exit))).disk) := by
  have hs : Dht.Refines (WasRegular members T depth) _ (Disciplined (u.fixed P))
      (dht members T depth around) Dht.map := refines_map haround hu.fixed_unique
  have hrep : Represents members around z (u.fixed P) (town, 0) fun _ => none :=
    ⟨⟨_, htown, hz, fun _ _ _ _ => rfl, by simp⟩, by simp⟩
  obtain ⟨r, hr, rfl⟩ := succeeds_daemonRun hs hu hu.disciplined hrep hwithin hregular
  exact hr

/-- The third of three members joins, and then the first crashes. -/
def trioAround : Around 3 where
  changes i :=
    if i = 3 then [.join newcomer partner 9 ⟨fun _ => 0, fun _ => 0⟩]
    else if i = 4 then [.crash founder]
    else []
  session i := if i < 4 then partner else newcomer

theorem trioAround_harmless : trioAround.Harmless partner := by
  have hchanges : ∀ i, ∀ change ∈ trioAround.changes i,
      change = .join newcomer partner 9 ⟨fun _ => 0, fun _ => 0⟩ ∨ change = .crash founder := by
    intro i change hmem
    simp only [trioAround] at hmem
    split_ifs at hmem
    · exact Or.inl (List.mem_singleton.1 hmem)
    · exact Or.inr (List.mem_singleton.1 hmem)
    · exact absurd hmem List.not_mem_nil
  refine ⟨fun i change hmem => ?_, fun i change hmem => ?_, fun i => ?_⟩
  · rcases hchanges i change hmem with rfl | rfl <;> simp
  · rcases hchanges i change hmem with rfl | rfl
    · simp
    · exact fun heq => absurd (Change.crash.inj heq) (by decide)
  · have hnone : ∀ i, 4 ≤ i → ((trioAround.changes i).map Change.joins).sum = 0 := by
      intro i hi
      simp only [trioAround, if_neg (show i ≠ 3 by omega)]
      split <;> rfl
    have hall : ∀ i, trioAround.joins i ≤ 1 := by
      intro i
      induction i with
      | zero => simp [Around.joins]
      | succ i ih =>
        have hsucc : trioAround.joins (i + 1) =
            trioAround.joins i + ((trioAround.changes i).map Change.joins).sum := by
          simp [Around.joins, List.range_succ]
        by_cases hi : 4 ≤ i
        · rw [hsucc, hnone i hi]
          exact ih
        · have hfew : i < 4 := Nat.lt_of_not_le hi
          interval_cases i <;> decide
    exact (hall i).trans (by decide)

/-- A file is stored while a third node joins and the first of the two others crashes. -/
theorem daemonRun_churn_trio :
    (inOrder.daemonRun (dht trioMembers .lossless 3 trioAround) helloDisk [.store [text "dir/a"]]
      (trio, 0)).result =
      .ok ((⟨[], helloDisk⟩ : Desk).answers ([.store [text "dir/a"]].takeWhile (· ≠ .exit)),
        ((⟨[], helloDisk⟩ : Desk).after ([.store [text "dir/a"]].takeWhile (· ≠ .exit))).disk) := by
  have hwithin : Runs.AllSteps (fun desk command => (desk.perform command).2) (Within helloUniverse)
      ⟨[], helloDisk⟩ [.store [text "dir/a"]] := by
    rw [Runs.allSteps_cons]
    exact ⟨helloStore_within (by decide +kernel) (by decide +kernel), Runs.allSteps_nil _ _⟩
  have hregular : ∀ made ∈ (inOrder.daemonRun (dht trioMembers .lossless 3 trioAround) helloDisk
      [.store [text "dir/a"]] (trio, 0)).events, Regular trioMembers .lossless 3 made.1 made.2 := by
    decide +kernel
  exact daemonRun_churn trio_together rfl trioAround_harmless inOrder helloUniverse_apart helloDisk _
    hwithin hregular

end Distft
