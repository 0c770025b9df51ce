import Distft.Session.Provenance

/-!
# Sessions at work

The sessions of an overlay work at the same time. Each operation that a client or a thread of a
session begins, and each request that a session is sent, is a thread of its own. A thread runs until
it reads the clock or sends an RPC; there it waits, and others run, before it goes on with the
session as it is by then. An RPC is answered by a thread of a session that has the endpoint, once
that has returned, or it fails, before or after it was handled. What a thread has done so far
follows from what it went on with (`Thread.run`), so a thread is that: the session that it began
with, and the wakeups since.

In any order of all this nothing is made up, mixed up or misfiled (`Overlay.provenance`): what is
under a key anywhere, and what is found for it, was given for it by an operation that has begun.
-/

namespace Distft

/-! ## Threads -/

/-- What a thread waits for. -/
inductive Wait where
  /-- A reading of the clock. -/
  | clock
  /-- An RPC to an endpoint. -/
  | rpc (m : Method) (endpoint : Bytes) (request : m.Request)

/-- What a thread goes on with. -/
structure Wakeup where
  /-- The session as it is by then. -/
  session : Session
  /-- The reading of the clock, if that is what it waited for. -/
  time : Time
  /-- What its request was answered, if it sent one. -/
  answer : (m : Method) → m.Request → Option m.Response

/-- What a thread has of the world: the session, the wakeups to come, and what it waits for when there
are no more. -/
structure View where
  /-- The session. -/
  session : Session
  /-- The wakeups to come. -/
  wakeups : List Wakeup
  /-- What the thread waits for, if it does. -/
  waits : Option Wait

/-- The view after what is waited for: the next wakeup, or none so far. A thread that waits does
nothing. -/
def View.await {α : Type} (v : View) (wait : Wait) (f : Wakeup → α) (otherwise : α) : α × View :=
  match v.waits, v.wakeups with
  | none, wakeup :: rest => (f wakeup, ⟨wakeup.session, rest, none⟩)
  | none, [] => (otherwise, { v with waits := some wait })
  | some _, _ => (otherwise, v)

/-- The `Net` of a thread. -/
def View.net (turns : ℕ) : Net View where
  session v := v.session
  withSession s v := if v.waits.isNone then { v with session := s } else v
  now v := v.await .clock Wakeup.time 0
  rpc m endpoint request v :=
    v.await (.rpc m endpoint request) (fun wakeup => wakeup.answer m request) none
  turns := turns

/-- What a thread does. -/
inductive Task where
  /-- An operation of the session. -/
  | own (operation : Operation)
  /-- The handler of a request: the number of the thread that sent it, and how often that had gone on
  before. -/
  | serve (caller turn : ℕ) (m : Method) (request : m.Request)

/-- The task, with the value that it finds. -/
def Task.perform {W : Type} (net : Net W) : Task → Op W (Option Bytes)
  | .own operation => operation.value net
  | .serve _ _ m request => do
    let _ ← net.handle m request
    return none

/-- The RPC that the task serves. -/
def Task.call : Task → Option (ℕ × ℕ)
  | .own _ => none
  | .serve caller turn _ _ => some (caller, turn)

/-- A thread of an overlay. -/
structure Thread (n : ℕ) where
  /-- The node. -/
  node : Fin n
  /-- What it does. -/
  task : Task
  /-- The session as it was at the beginning. -/
  session : Session
  /-- What it went on with. -/
  wakeups : List Wakeup

namespace Thread

variable {n : ℕ} (turns : ℕ) (t : Thread n)

/-- The view at the beginning. -/
def start : View := ⟨t.session, t.wakeups, none⟩

/-- What the thread has done. -/
def run : Run Event Fault View (Option Bytes) := t.task.perform (View.net turns) t.start

/-- What the thread waits for; nothing, when it has ended. -/
def waits : Option Wait := (t.run turns).state.waits

/-- The response of a thread that has ended to a request, if it served it and no exception ended
it. -/
def reply (m : Method) (request : m.Request) : Option m.Response :=
  match t.task with
  | .own _ => none
  | .serve _ _ m' request' =>
    if (⟨m', request'⟩ : Σ m : Method, m.Request) = ⟨m, request⟩ then
      ((View.net turns).handle m request t.start).result.toOption
    else none

/-- The thread has found a value for a key. -/
def Finds (key : Key) (data : Bytes) : Prop :=
  ∃ operation, t.task = .own operation ∧ operation.searches = some key ∧ t.waits turns = none ∧
    (t.run turns).result = .ok (some data)

end Thread

/-! ## Overlays -/

/-- Sessions, and the threads that work in them. -/
structure Overlay (n : ℕ) where
  /-- The session of each node. -/
  nodes : Fin n → Session
  /-- The threads, those that have ended too. -/
  threads : List (Thread n)

/-- What happens in an overlay. -/
inductive Deed (n : ℕ) where
  /-- An operation begins. -/
  | begin (x : Fin n) (operation : Operation)
  /-- A thread reads the clock. -/
  | tick (i : ℕ) (time : Time)
  /-- The request of a thread arrives at a node. -/
  | arrive (i : ℕ) (y : Fin n)
  /-- The response of a thread arrives at the one that sent the request. -/
  | answer (i j : ℕ)
  /-- The RPC of a thread fails. -/
  | fail (i : ℕ)

namespace Overlay

variable {n : ℕ} (turns : ℕ) (o : Overlay n)

/-- A new thread runs until it waits. -/
def spawn (x : Fin n) (task : Task) : Overlay n :=
  let t : Thread n := ⟨x, task, o.nodes x, []⟩
  ⟨Function.update o.nodes x (t.run turns).state.session, o.threads ++ [t]⟩

/-- A thread goes on until it waits again. -/
def wake (i : ℕ) (t : Thread n) (time : Time)
    (answer : (m : Method) → m.Request → Option m.Response) : Overlay n :=
  let t' := { t with wakeups := t.wakeups ++ [⟨o.nodes t.node, time, answer⟩] }
  ⟨Function.update o.nodes t.node (t'.run turns).state.session, o.threads.set i t'⟩

/-- A thread that waits, with what it waits for. -/
def waiting (i : ℕ) : Option (Thread n × Wait) :=
  o.threads[i]?.bind fun t => (t.waits turns).map fun wait => (t, wait)

/-- A thread that has ended. -/
def ended (j : ℕ) : Option (Thread n) := o.threads[j]?.filter fun t => (t.waits turns).isNone

/-- The overlay after a deed. What cannot be done changes nothing. -/
def step (o : Overlay n) : Deed n → Overlay n
  | .begin x operation => o.spawn turns x (.own operation)
  | .tick i time =>
    match o.waiting turns i with
    | some (t, .clock) => o.wake turns i t time fun _ _ => none
    | _ => o
  | .arrive i y =>
    match o.waiting turns i with
    | some (t, .rpc m endpoint request) =>
      -- A request arrives at most once, where its endpoint is served.
      if (o.nodes y).router.selfPeer.endpoint = endpoint ∧
          Transport.lossless.carries m request = true ∧
          ∀ t' ∈ o.threads, t'.task.call ≠ some (i, t.wakeups.length) then
        o.spawn turns y (.serve i t.wakeups.length m request)
      else o
    | _ => o
  | .answer i j =>
    match o.waiting turns i, o.ended turns j with
    | some (t, .rpc _ _ _), some t' =>
      if t'.task.call = some (i, t.wakeups.length) then
        o.wake turns i t 0 fun m request =>
          (t'.reply turns m request).filter (Transport.lossless.returns m)
      else o
    | _, _ => o
  | .fail i =>
    match o.waiting turns i with
    | some (t, .rpc _ _ _) => o.wake turns i t 0 fun _ _ => none
    | _ => o

/-- The overlay after deeds. -/
def run (o : Overlay n) (deeds : List (Deed n)) : Overlay n := Runs.run (step turns) o deeds

/-- What a deed can do. -/
inductive Effect : Deed n → Overlay n → Prop where
  /-- Nothing. -/
  | idle (deed : Deed n) : Effect deed o
  /-- An operation begins. -/
  | begins (x : Fin n) (operation : Operation) :
    Effect (.begin x operation) (o.spawn turns x (.own operation))
  /-- A thread goes on with a reading of the clock. -/
  | ticks {i : ℕ} {t : Thread n} (time : Time) (ht : o.threads[i]? = some t)
    (hwaits : t.waits turns = some .clock) :
    Effect (.tick i time) (o.wake turns i t time fun _ _ => none)
  /-- A handler begins. -/
  | arrives {i : ℕ} {t : Thread n} {y : Fin n} {m : Method} {request : m.Request}
    (ht : o.threads[i]? = some t)
    (hwaits : t.waits turns = some (.rpc m (o.nodes y).router.selfPeer.endpoint request))
    (hcarries : Transport.lossless.carries m request = true)
    (hnew : ∀ t' ∈ o.threads, t'.task.call ≠ some (i, t.wakeups.length)) :
    Effect (.arrive i y) (o.spawn turns y (.serve i t.wakeups.length m request))
  /-- A thread goes on with an answer. -/
  | answers {i j : ℕ} {t t' : Thread n} {m : Method} {endpoint : Bytes} {request : m.Request}
    (ht : o.threads[i]? = some t) (hwaits : t.waits turns = some (.rpc m endpoint request))
    (ht' : o.threads[j]? = some t') (hended : t'.waits turns = none)
    (hcall : t'.task.call = some (i, t.wakeups.length)) :
    Effect (.answer i j) (o.wake turns i t 0 fun m request =>
      (t'.reply turns m request).filter (Transport.lossless.returns m))
  /-- A thread goes on without an answer. -/
  | fails {i : ℕ} {t : Thread n} {m : Method} {endpoint : Bytes} {request : m.Request}
    (ht : o.threads[i]? = some t) (hwaits : t.waits turns = some (.rpc m endpoint request)) :
    Effect (.fail i) (o.wake turns i t 0 fun _ _ => none)

variable {turns o}

theorem of_waiting {i : ℕ} {t : Thread n} {wait : Wait} (h : o.waiting turns i = some (t, wait)) :
    o.threads[i]? = some t ∧ t.waits turns = some wait := by
  obtain ⟨t', ht', h⟩ := Option.bind_eq_some_iff.1 h
  obtain ⟨wait', hwait', h⟩ := Option.map_eq_some_iff.1 h
  obtain ⟨rfl, rfl⟩ := Prod.mk.inj h
  exact ⟨ht', hwait'⟩

theorem of_ended {j : ℕ} {t : Thread n} (h : o.ended turns j = some t) :
    o.threads[j]? = some t ∧ t.waits turns = none := by
  obtain ⟨ht, hended⟩ := Option.filter_eq_some_iff.1 h
  exact ⟨ht, Option.isNone_iff_eq_none.1 hended⟩

/-- A deed does nothing else. -/
theorem step_effect (turns : ℕ) (o : Overlay n) (deed : Deed n) :
    o.Effect turns deed (o.step turns deed) := by
  cases deed with
  | begin x operation => exact .begins x operation
  | tick i time =>
    simp only [step]
    split
    · next t hwaiting =>
      obtain ⟨ht, hwaits⟩ := of_waiting hwaiting
      exact .ticks time ht hwaits
    · exact .idle _
  | arrive i y =>
    simp only [step]
    split
    · next t m endpoint request hwaiting =>
      split_ifs with harrives
      · obtain ⟨ht, hwaits⟩ := of_waiting hwaiting
        obtain ⟨rfl, hcarries, hnew⟩ := harrives
        exact .arrives ht hwaits hcarries hnew
      · exact .idle _
    · exact .idle _
  | answer i j =>
    simp only [step]
    split
    · next t m endpoint request t' hwaiting hended =>
      split_ifs with hcall
      · obtain ⟨ht, hwaits⟩ := of_waiting hwaiting
        obtain ⟨ht', hended⟩ := of_ended hended
        exact .answers ht hwaits ht' hended hcall
      · exact .idle _
    · exact .idle _
  | fail i =>
    simp only [step]
    split
    · next t m endpoint request hwaiting =>
      obtain ⟨ht, hwaits⟩ := of_waiting hwaiting
      exact .fails ht hwaits
    · exact .idle _

end Overlay

/-! ## Nothing is made up -/

section Origin

variable (origin : Origin)

/-- A wakeup with a sound session, and faithful answers. -/
structure Wakeup.Sound (wakeup : Wakeup) : Prop where
  /-- The session. -/
  session : wakeup.session.Sound origin
  /-- The answer. -/
  answer : ∀ m request response, m.Honest origin request → wakeup.answer m request = some response →
    Transport.lossless.returns m response = true ∧ m.Faithful origin request response

/-- A view of sound sessions, and a wait for an answer to an honest request, if it is one for an
answer. -/
structure View.Sound (v : View) : Prop where
  /-- The session. -/
  session : v.session.Sound origin
  /-- What is to come. -/
  wakeups : ∀ wakeup ∈ v.wakeups, wakeup.Sound origin
  /-- What is waited for. -/
  waits : ∀ m endpoint request, v.waits = some (.rpc m endpoint request) → m.Honest origin request

/-- A task that is given what may be given. -/
def Task.Honest : Task → Prop
  | .own operation => operation.Honest origin
  | .serve _ _ m request => origin.Names [m.sender request] ∧
    ∀ key data, m.gives request = some (key, data) → origin.given key data

/-- A thread that began and went on with sound sessions. -/
structure Thread.Sound {n : ℕ} (t : Thread n) : Prop where
  /-- The task. -/
  task : t.task.Honest origin
  /-- The session at the beginning. -/
  session : t.session.Sound origin
  /-- The wakeups. -/
  wakeups : ∀ wakeup ∈ t.wakeups, wakeup.Sound origin

/-- An overlay of sound sessions and threads. -/
structure Overlay.Sound {n : ℕ} (o : Overlay n) : Prop where
  /-- The sessions. -/
  nodes : ∀ x, (o.nodes x).Sound origin
  /-- The threads. -/
  threads : ∀ t ∈ o.threads, t.Sound origin

/-- What a deed is given, it may be given. -/
def Deed.Honest {n : ℕ} : Deed n → Prop
  | .begin _ operation => operation.Honest origin
  | _ => True

end Origin

variable {origin : Origin} {n turns : ℕ}

/-- A wait keeps a view sound, and what it comes to is from a sound wakeup. -/
theorem View.Sound.await {v : View} (h : v.Sound origin) {wait : Wait}
    (hwait : ∀ m endpoint request, wait = .rpc m endpoint request → m.Honest origin request)
    {α : Type} (f : Wakeup → α) (otherwise : α) :
    (v.await wait f otherwise).2.Sound origin ∧
      ((v.await wait f otherwise).1 = otherwise ∨
        ∃ wakeup : Wakeup, wakeup.Sound origin ∧ (v.await wait f otherwise).1 = f wakeup) := by
  obtain ⟨session, wakeups, waits⟩ := v
  cases waits with
  | some _ => exact ⟨h, .inl rfl⟩
  | none =>
    cases wakeups with
    | nil =>
      refine ⟨⟨h.session, h.wakeups, fun m endpoint request heq => ?_⟩, .inl rfl⟩
      exact hwait m endpoint request (Option.some.inj heq)
    | cons wakeup rest =>
      have hwakeup := h.wakeups wakeup List.mem_cons_self
      have hrest : ∀ later ∈ rest, later.Sound origin := fun later hlater =>
        h.wakeups later (List.mem_cons_of_mem _ hlater)
      exact ⟨⟨hwakeup.session, hrest, fun _ _ _ heq => nomatch heq⟩, .inr ⟨wakeup, hwakeup, rfl⟩⟩

/-- The threads of others keep to what was given, so a thread can rely on it. -/
theorem View.authentic (turns : ℕ) : (View.net turns).Authentic origin (View.Sound origin) where
  session _ h := h.session
  withSession s v hs h := by
    obtain ⟨session, wakeups, waits⟩ := v
    cases waits with
    | none => exact ⟨hs, h.wakeups, h.waits⟩
    | some wait => exact h
  now v h := by
    refine (h.await (fun m endpoint request heq => ?_) _ _).1
    cases heq
  rpc m endpoint request v hhonest h := by
    refine (h.await (fun m' endpoint' request' heq => ?_) _ _).1
    cases heq
    exact hhonest
  answer m endpoint request v response hhonest h hresponse := by
    have hwait : ∀ m' endpoint' request', Wait.rpc m endpoint request = .rpc m' endpoint' request' →
        m'.Honest origin request' := by
      intro m' endpoint' request' heq
      cases heq
      exact hhonest
    rcases (h.await hwait (fun wakeup => wakeup.answer m request) none).2 with
      hnone | ⟨wakeup, hsound, heq⟩
    · exact nomatch hnone.symm.trans hresponse
    · exact hsound.answer m request response hhonest (heq.symm.trans hresponse)

namespace Thread.Sound

variable {t : Thread n}

/-- A thread begins with a sound view. -/
theorem start (h : t.Sound origin) : t.start.Sound origin :=
  ⟨h.session, h.wakeups, fun _ _ _ heq => nomatch heq⟩

/-- A thread leaves a sound view. -/
theorem run (h : t.Sound origin) : (t.run turns).state.Sound origin := by
  obtain ⟨node, task, session, wakeups⟩ := t
  cases task with
  | own operation => exact ((View.authentic turns).value h.task).keeps _ h.start
  | serve caller turn m request =>
    have hhandle : Net.Delivers (View.Sound origin)
        (Task.perform (View.net turns) (.serve caller turn m request)) fun _ => True :=
      ((View.authentic turns).handle m h.task.1 h.task.2).bind fun _ _ => Net.delivers_pure trivial
    exact hhandle.keeps _ h.start

/-- A thread replies faithfully. -/
theorem reply (h : t.Sound origin) {m : Method} {request : m.Request} {response : m.Response}
    (hreply : t.reply turns m request = some response) : m.Faithful origin request response := by
  obtain ⟨node, task, session, wakeups⟩ := t
  cases task with
  | own operation => exact nomatch hreply
  | serve caller turn m' request' =>
    simp only [Thread.reply] at hreply
    split_ifs at hreply with heq
    cases heq
    refine ((View.authentic turns).handle m h.task.1 h.task.2).returns _ response h.start ?_
    unfold Except.toOption at hreply
    split at hreply
    · next response' hresult => rw [hresult, Option.some.inj hreply]
    · exact nomatch hreply

/-- What a thread has found for a key was given for it. -/
theorem finds (h : t.Sound origin) {key : Key} {data : Bytes} (hfinds : t.Finds turns key data) :
    origin.given key data := by
  obtain ⟨operation, htask, hkey, -, hresult⟩ := hfinds
  have htask' := h.task
  rw [htask] at htask'
  rw [Thread.run, htask] at hresult
  exact ((View.authentic turns).value htask').returns _ _ h.start hresult key data hkey rfl

end Thread.Sound

namespace Overlay

variable {o : Overlay n}

/-- Another session at a node, and other threads. -/
theorem Sound.update (h : o.Sound origin) (x : Fin n) {s : Session} (hs : s.Sound origin)
    {threads : List (Thread n)} (hthreads : ∀ t ∈ threads, t.Sound origin) :
    Overlay.Sound origin ⟨Function.update o.nodes x s, threads⟩ := by
  refine ⟨fun y => ?_, hthreads⟩
  show (Function.update o.nodes x s y).Sound origin
  by_cases hy : y = x
  · rwa [hy, Function.update_self]
  · rw [Function.update_of_ne hy]
    exact h.nodes y

/-- A new thread. -/
theorem Sound.spawn (h : o.Sound origin) (x : Fin n) {task : Task} (htask : task.Honest origin) :
    (o.spawn turns x task).Sound origin := by
  have ht : Thread.Sound origin (⟨x, task, o.nodes x, []⟩ : Thread n) :=
    ⟨htask, h.nodes x, fun _ hmem => nomatch hmem⟩
  refine h.update x ht.run.session fun t hmem => ?_
  rcases List.mem_append.1 hmem with hmem | hmem
  · exact h.threads t hmem
  · exact List.mem_singleton.1 hmem ▸ ht

/-- A thread goes on. -/
theorem Sound.wake (h : o.Sound origin) {i : ℕ} {t : Thread n} (ht : o.threads[i]? = some t)
    (time : Time) {answer : (m : Method) → m.Request → Option m.Response}
    (hanswer : ∀ m request response, answer m request = some response →
      Transport.lossless.returns m response = true ∧ m.Faithful origin request response) :
    (o.wake turns i t time answer).Sound origin := by
  have ht := h.threads t (List.mem_of_getElem? ht)
  have ht' : Thread.Sound origin
      { t with wakeups := t.wakeups ++ [⟨o.nodes t.node, time, answer⟩] } := by
    refine ⟨ht.task, ht.session, fun wakeup hmem => ?_⟩
    rcases List.mem_append.1 hmem with hmem | hmem
    · exact ht.wakeups wakeup hmem
    · obtain rfl := List.mem_singleton.1 hmem
      exact ⟨h.nodes t.node, fun m request response _ => hanswer m request response⟩
  refine h.update t.node ht'.run.session fun t'' hmem => ?_
  rcases List.mem_or_eq_of_mem_set hmem with hmem | rfl
  · exact h.threads t'' hmem
  · exact ht'

/-- Every deed that is given nothing else keeps the overlay sound. -/
theorem Sound.step (h : o.Sound origin) {deed : Deed n} (hdeed : deed.Honest origin) :
    (o.step turns deed).Sound origin := by
  have heffect := o.step_effect turns deed
  generalize o.step turns deed = o' at heffect ⊢
  cases heffect with
  | idle => exact h
  | begins x operation => exact h.spawn x hdeed
  | ticks time ht hwaits => exact h.wake ht time fun _ _ _ heq => nomatch heq
  | arrives ht hwaits hcarries hnew =>
    have hhonest := (h.threads _ (List.mem_of_getElem? ht)).run.waits _ _ _ hwaits
    exact h.spawn _ ⟨hhonest.names, hhonest.gives hcarries⟩
  | answers ht hwaits ht' hended hcall =>
    refine h.wake ht 0 fun m request response hresponse => ?_
    obtain ⟨hreply, hfits⟩ := Option.filter_eq_some_iff.1 hresponse
    exact ⟨hfits, (h.threads _ (List.mem_of_getElem? ht')).reply hreply⟩
  | fails ht hwaits => exact h.wake ht 0 fun _ _ _ heq => nomatch heq

/-- No thread works in a new overlay, and no session has a chunk. -/
structure New (o : Overlay n) : Prop where
  /-- The threads. -/
  threads : o.threads = []
  /-- The routers. -/
  router : ∀ x, (o.nodes x).router.Invariant
  /-- The chunks. -/
  chunks : ∀ x, (o.nodes x).chunks = ∅

/-- One of the operations that begin is given the data for the key. -/
def Given (deeds : List (Deed n)) (key : Key) (data : Bytes) : Prop :=
  ∃ x operation, .begin x operation ∈ deeds ∧ operation.gives = some (key, data)

/-- A session is the peer or knows it at the beginning, or an operation that begins names it. -/
def Named (o : Overlay n) (deeds : List (Deed n)) (peer : Peer) : Prop :=
  (∃ x, peer = (o.nodes x).router.selfPeer ∨ peer ∈ (o.nodes x).router.allPeers) ∨
    ∃ x operation, .begin x operation ∈ deeds ∧ peer ∈ operation.names

/-- An overlay stays sound, as long as the operations that begin are given nothing else. -/
theorem Sound.run (h : o.Sound origin) {deeds : List (Deed n)}
    (hdeeds : ∀ deed ∈ deeds, deed.Honest origin) : (o.run turns deeds).Sound origin := by
  induction deeds generalizing o with
  | nil => exact h
  | cons deed rest ih =>
    exact ih (h.step (hdeeds deed List.mem_cons_self)) fun deed' hmem =>
      hdeeds deed' (List.mem_cons_of_mem _ hmem)

/-- A new overlay is sound, and stays so. -/
theorem New.run (hnew : o.New) (turns : ℕ) (deeds : List (Deed n)) :
    (o.run turns deeds).Sound ⟨Given deeds, Named o deeds⟩ := by
  have hrouter : ∀ x, Router.Sound ⟨Given deeds, Named o deeds⟩ (o.nodes x).router := fun x =>
    ⟨hnew.router x, Or.inl ⟨x, .inl rfl⟩, fun p hp => Or.inl ⟨x, .inr hp⟩⟩
  have hsound : o.Sound ⟨Given deeds, Named o deeds⟩ := by
    refine ⟨fun x => ⟨hrouter x, fun key chunk hlookup => ?_⟩, fun t ht => ?_⟩
    · rw [hnew.chunks x, AList.lookup_empty] at hlookup
      exact nomatch hlookup
    · rw [hnew.threads] at ht
      exact nomatch ht
  refine hsound.run fun deed hdeed => ?_
  cases deed with
  | begin x operation =>
    exact ⟨fun p hp => .inr ⟨x, operation, hdeed, hp⟩,
      fun key data hgives => ⟨x, operation, hdeed, hgives⟩⟩
  | tick => exact trivial
  | arrive => exact trivial
  | answer => exact trivial
  | fail => exact trivial

/-- In every order of operations, handlers, answers and failures, every router keeps its invariant,
and holds only peers that sessions began with or operations named; every chunk is stored under its
own key with data that an operation was given for that key, and so was every value that a thread
finds for a key. -/
theorem provenance (turns : ℕ) (hnew : o.New) (deeds : List (Deed n)) :
    (∀ x, ((o.run turns deeds).nodes x).router.Invariant ∧
      ∀ p ∈ ((o.run turns deeds).nodes x).router.allPeers, Named o deeds p) ∧
      (∀ x key chunk, ((o.run turns deeds).nodes x).chunks.lookup key = some chunk →
        chunk.key = key ∧ Given deeds key chunk.data) ∧
      ∀ t ∈ (o.run turns deeds).threads, ∀ key data, t.Finds turns key data → Given deeds key data := by
  have hsound := hnew.run turns deeds
  refine ⟨fun x => ?_, fun x key chunk hlookup => ?_, fun t ht key data hfinds => ?_⟩
  · obtain ⟨hinv, -, hpeers⟩ := (hsound.nodes x).router
    exact ⟨hinv, hpeers⟩
  · obtain ⟨hkey, hdata⟩ := (hsound.nodes x).chunks key chunk hlookup
    exact ⟨hkey, hdata⟩
  · exact (hsound.threads t ht).finds hfinds

/-- The peer of the first or the second session. -/
def pairPeer (x : Fin 2) : Peer := ⟨BitVec.ofNat 160 x, [UInt8.ofNat x]⟩

/-- Two sessions that know each other. -/
def pair : Overlay 2 where
  nodes x := ⟨Router.new 0 (pairPeer x) (pairPeer x.rev), ∅, 0⟩
  threads := []

theorem pair_new : pair.New :=
  ⟨rfl, fun _ => Router.Reachable.invariant ⟨0, _, _, [], rfl⟩, fun _ => rfl⟩

/-- The first session looks up the nodes near a key that it sets, asks the second whether it has a
chunk, and sends it the chunk; it is not answered yet when a `get` begins at the second. -/
def pairDeeds : List (Deed 2) :=
  [.begin (Fin.castSucc (Fin.last 0)) (.set 5 [7] false), .tick 0 0, .tick 0 0, .tick 0 0,
    .arrive 0 (Fin.last 1), .tick 1 0, .tick 1 0, .answer 0 1, .tick 0 0,
    .arrive 0 (Fin.last 1), .tick 2 0, .tick 2 0, .answer 0 2, .tick 0 0,
    .arrive 0 (Fin.last 1), .tick 3 0, .answer 0 3, .tick 0 0,
    .arrive 0 (Fin.last 1), .tick 4 0, .tick 4 0, .begin (Fin.last 1) (.get 5)]

/-- The second session has a chunk under the key while the first waits, and it is the one that was
set. -/
theorem provenance_pair :
    (((pair.run 2 pairDeeds).nodes (Fin.last 1)).chunks.lookup 5).isSome = true ∧
      ∀ chunk, ((pair.run 2 pairDeeds).nodes (Fin.last 1)).chunks.lookup 5 = some chunk →
        chunk.key = 5 ∧ Given pairDeeds 5 chunk.data :=
  ⟨by decide +kernel, (provenance 2 pair_new pairDeeds).2.1 (Fin.last 1) 5⟩

end Overlay

end Distft
