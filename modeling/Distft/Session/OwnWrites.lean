import Distft.Session.Publish

/-!
# A session reads what it wrote

A session works while its RPCs wait: its client sets and gets, and its handlers serve requests, whose
RPCs wait in turn. A `Timeline` has the session with all that is to come: the readings of the clock,
and for every RPC the answer and what the session does before the answer is there. RPCs nest to a
depth, and at every depth anything may be answered.

A `set` that returns leaves its chunk in the session, as `publish` does. From then on the chunk stays
through all that spares its key (`Activity.Spares`, `frame_holds`), so `get` finds it there and asks
nobody (`getValue_set`).
-/

namespace Distft

/-- What a session does. -/
inductive Activity where
  /-- `get(key)`. -/
  | get (key : Key)
  /-- `set(key, value, force)`. -/
  | set (key : Key) (value : Bytes) (force : Bool)
  /-- A request that comes in. -/
  | request (m : Method) (request : m.Request)
  /-- Any other change of the session, such as those by its threads. -/
  | other (change : Session → Session)

/-- The activity does not touch the chunk of a key: it is not a `set` of the key, nor a `Store`
request for it, nor another change of what is stored under it. -/
def Activity.Spares (key : Key) : Activity → Prop
  | .get _ => True
  | .set key' _ _ => key' ≠ key
  | .request m message => m.storedKey message ≠ some key
  | .other change => ∀ s, (change s).chunks.lookup key = s.chunks.lookup key

/-- The activity, on a session. -/
def Activity.perform {W : Type} (net : Net W) : Activity → Op W Unit
  | .get key => do
    let _ ← net.getValue key
  | .set key value force => net.set key value force
  | .request m message => do
    let _ ← net.handle m message
  | .other change => net.modify fun s => ((), change s)

/-- The world after activities, one after the other. An exception ends the activity it is thrown in.
-/
def performAll {W : Type} (net : Net W) (activities : List Activity) (w : W) : W :=
  activities.foldl (fun w activity => (activity.perform net w).state) w

/-- An RPC to come. -/
structure Window where
  /-- What is answered, `none` for a status other than OK. -/
  answer : (m : Method) → Option m.Response
  /-- What the session does before. -/
  meanwhile : List Activity

/-- A session and what is to come. -/
structure Timeline where
  /-- The session. -/
  session : Session
  /-- The readings of the clock. -/
  clock : ℕ → Time
  /-- The RPCs, in the order in which they are sent. -/
  windows : ℕ → Window

namespace Timeline

/-- The time after an RPC was sent. -/
def sent (t : Timeline) : Timeline := { t with windows := fun i => t.windows (i + 1) }

/-- The `Net` of the session, given what is done while RPCs wait. -/
def netOf (turns : ℕ) (work : List Activity → Timeline → Timeline) : Net Timeline where
  session t := t.session
  withSession s t := { t with session := s }
  now t := (t.clock 0, { t with clock := fun i => t.clock (i + 1) })
  rpc m _ _ t := ((t.windows 0).answer m, work (t.windows 0).meanwhile t.sent)
  turns := turns

/-- The `Net` of the session, where RPCs nest to a depth. -/
def net (turns : ℕ) : ℕ → Net Timeline
  | 0 => netOf turns fun _ t => t
  | depth + 1 => netOf turns (performAll (net turns depth))

/-- At every depth the session is read. -/
theorem session_net (turns depth : ℕ) (t : Timeline) : (net turns depth).session t = t.session := by
  cases depth <;> rfl

/-- At every depth the session is changed. -/
theorem withSession_net (turns depth : ℕ) (s : Session) (t : Timeline) :
    (net turns depth).withSession s t = { t with session := s } := by
  cases depth <;> rfl

variable {turns depth : ℕ} {key : Key} {value : Bytes}

/-- What is done while RPCs wait spares a key from now on. -/
def Spared (key : Key) (t : Timeline) : Prop := ∀ i, ∀ a ∈ (t.windows i).meanwhile, a.Spares key

/-- The session has the value, and keeps it while RPCs wait. -/
structure Holds (key : Key) (value : Bytes) (t : Timeline) : Prop where
  /-- A chunk with the value is there. -/
  chunk : (t.session.chunks.lookup key).map Chunk.data = some value
  /-- It is spared. -/
  spared : t.Spared key

/-- The value stays under changes of the session that leave what is stored under the key. -/
theorem Holds.withSession {t : Timeline} (h : t.Holds key value) {s : Session}
    (hs : s.chunks.lookup key = t.session.chunks.lookup key) :
    Holds key value { t with session := s } :=
  ⟨by rw [← h.chunk, ← hs], h.spared⟩

/-- Insertions under other keys leave what is stored under a key. -/
theorem Holds.insert {t : Timeline} (h : t.Holds key value) {key' : Key} (hne : key' ≠ key)
    (chunk : Chunk) :
    Holds key value { t with session := { t.session with
      chunks := t.session.chunks.insert key' chunk } } :=
  h.withSession (AList.lookup_insert_ne hne.symm)

/-- Activities that spare the key leave the value, if nothing else ends it. -/
theorem holds_performAll (hframe : (net turns depth).Frame (Holds key value))
    {activities : List Activity} (hspares : ∀ a ∈ activities, a.Spares key) {t : Timeline}
    (h : t.Holds key value) : (performAll (net turns depth) activities t).Holds key value := by
  have hinsert : ∀ t key' chunk, key' ≠ key → Holds key value t →
      Holds key value ((net turns depth).withSession { (net turns depth).session t with
        chunks := ((net turns depth).session t).chunks.insert key' chunk } t) := by
    intro t key' chunk hne ht
    rw [withSession_net, session_net]
    exact ht.insert hne chunk
  induction activities generalizing t with
  | nil => exact h
  | cons a rest ih =>
    refine ih (fun a' ha' => hspares a' (List.mem_cons_of_mem _ ha')) ?_
    have ha := hspares a List.mem_cons_self
    suffices hkeeps : Net.Keeps (Holds key value) (fun _ => True) (a.perform (net turns depth)) from
      hkeeps.keeps t h
    cases a with
    | get key' => exact (Net.keeps_getValue hframe key').bind fun _ => Net.keeps_pure _
    | set key' value' force =>
      exact Net.keeps_set hframe key' value' force fun t chunk _ => hinsert t key' chunk ha
    | request m request =>
      refine (Net.keeps_handle hframe m request fun t key' chunk hkey _ =>
        hinsert t key' chunk fun heq => ?_).bind fun _ => Net.keeps_pure _
      exact ha (heq ▸ hkey)
    | other change =>
      refine Exec.steady_act fun t ht => ?_
      rw [withSession_net, session_net]
      exact ht.withSession (ha _)

/-- The value stays at every depth. -/
theorem frame_holds (turns depth : ℕ) (key : Key) (value : Bytes) :
    (net turns depth).Frame (Holds key value) := by
  have hframe : ∀ work : List Activity → Timeline → Timeline,
      (∀ activities t, (∀ a ∈ activities, a.Spares key) → t.Holds key value →
        (work activities t).Holds key value) → (netOf turns work).Frame (Holds key value) := fun work hwork =>
    ⟨fun t call h => h.withSession rfl, fun t n h => h.withSession rfl,
      fun t h => ⟨h.chunk, h.spared⟩,
      fun m endpoint request t h => hwork _ _ (h.spared 0) ⟨h.chunk, fun i => h.spared (i + 1)⟩⟩
  -- On the depth: what is done while an RPC waits sends its RPCs one level down.
  induction depth with
  | zero => exact hframe _ fun _ _ _ h => h
  | succ depth ih => exact hframe _ fun _ _ hspares h => holds_performAll ih hspares h

/-- A `get` that finds the value asks nobody. -/
theorem Holds.getValue {t : Timeline} (h : t.Holds key value) :
    ((net turns depth).getValue key t).result = .ok (some value) := by
  obtain ⟨chunk, hchunk, rfl⟩ := Option.map_eq_some_iff.1 h.chunk
  have hlock : (Net.lock .chunks : Op Timeline Unit) t = ⟨[.lock .chunks], t, .ok ()⟩ := rfl
  have hget : (net turns depth).get (fun s => s.chunks.lookup key) t = ⟨[], t, .ok (some chunk)⟩ := by
    rw [← hchunk, ← session_net turns depth t]
    rfl
  rw [Net.getValue, Exec.bind_run hlock, Exec.bind_run hget]
  rfl

/-- A `set` that returns leaves the value in the session, whatever was answered and done meanwhile. -/
theorem set_holds (t : Timeline) (force : Bool)
    (hset : ((net turns depth).set key value force t).result = .ok ()) :
    ((((net turns depth).set key value force t).state.session.chunks.lookup key).map Chunk.data =
      some value) := by
  have hleads : Exec.Leads ((net turns depth).set key value force) t
      (fun t' _ => (t'.session.chunks.lookup key).map Chunk.data = some value) fun _ => True := by
    refine .bind (Exec.leads_act (.bind (Exec.leads_act ?_)))
    refine Net.leads_publish (net turns depth).frame_true _ force trivial fun t' _ => ?_
    rw [withSession_net, AList.lookup_insert]
    rfl
  exact hleads.1 () hset

/-- What a session set it gets, at once and after all that spares the key, also while RPCs wait. -/
theorem getValue_set (turns depth : ℕ) (t : Timeline) (key : Key) (value : Bytes) (force : Bool)
    (hset : ((net turns depth).set key value force t).result = .ok ())
    (hspared : ((net turns depth).set key value force t).state.Spared key)
    (later : List Activity) (hlater : ∀ a ∈ later, a.Spares key) :
    ((net turns depth).getValue key (performAll (net turns depth) later
      ((net turns depth).set key value force t).state)).result = .ok (some value) := by
  have hholds : ((net turns depth).set key value force t).state.Holds key value :=
    ⟨set_holds t force hset, hspared⟩
  exact (holds_performAll (frame_holds turns depth key value) hlater hholds).getValue

/-- A session that knows one peer, with a time to come in which every RPC fails. -/
def quiet : Timeline :=
  ⟨⟨Router.new 0 ⟨4, [0]⟩ ⟨1, [1]⟩, ∅, 0⟩, fun _ => 0, fun _ => ⟨fun _ => none, []⟩⟩

/-- A value is still there after a `get` and a `set` of another key, and a request. -/
theorem getValue_set_quiet :
    ((net 2 0).getValue 5 (performAll (net 2 0)
      [.get 6, .set 6 [1] true, .request .ping ⟨⟨[], [2]⟩⟩]
      ((net 2 0).set 5 [7] false quiet).state)).result = .ok (some [7]) := by
  have hkeeps : Net.Keeps (fun t : Timeline => ∀ i, (t.windows i).meanwhile = []) (fun _ => True)
      ((net 2 0).set 5 [7] false) :=
    Net.keeps_set ⟨fun _ _ h => h, fun _ _ h => h, fun _ h => h, fun _ _ _ _ h i => h (i + 1)⟩ 5 [7]
      false fun _ _ _ h => h
  refine getValue_set 2 0 quiet 5 [7] false (by decide +kernel) ?_ _ ?_
  · intro i a ha
    rw [hkeeps.keeps quiet (fun _ => rfl) i] at ha
    exact nomatch ha
  · intro a ha
    simp only [List.mem_cons, List.not_mem_nil, or_false] at ha
    rcases ha with rfl | rfl | rfl
    · trivial
    · show (6 : Key) ≠ 5
      decide
    · exact nofun

end Timeline

end Distft
