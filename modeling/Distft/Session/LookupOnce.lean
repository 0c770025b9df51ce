import Distft.Session.Lookup

/-!
# The lookup asks nobody twice

The inner loop of `lookup_helper` walks the list of peers by an index whose bound is read again at
every turn, as the queries add to the list. The model of the session recurs over the peers that are
still to be visited; here the loop is the one of the source (`innerLoop`), with a number of turns
that it is given, and with the types of its counters: the size of the list is cast to an int, which
the unsigned counter of answers is compared with (`lookupCount`), and the index is an int.

No run asks a key twice, also one that is not given enough turns (`lookupHelperLoops_once`). As
long as the list stays below `2^31` entries (`Fits`) no round has more than `PEER_LOOKUP_ALPHA`
answers, and with enough turns a lookup by one model is a lookup by the other
(`lookupHelperLoops_settles`), so the loop ends. A list of `2^31` entries makes a negative int of
its size, and the round goes on past the third answer (`not_looksUpOnce`).
-/

namespace Distft

/-- What a lookup shows: whom it asks, and what its session shows. -/
inductive LookupEvent where
  /-- A turn of the outer loop begins. -/
  | round
  /-- The query function is called on a peer. -/
  | asks (key : Key)
  /-- The query function increased the counter of answers. -/
  | answer (key : Key)
  /-- An event of the session. -/
  | shows (e : Event)

namespace LookupEvent

/-- The event of the session, if it is one. -/
def sessionEvents : LookupEvent → List Event
  | shows e => [e]
  | _ => []

/-- The key that is asked, if one is. -/
def askedKeys : LookupEvent → List Key
  | asks key => [key]
  | _ => []

/-- The event is an answer. -/
def isAnswer : LookupEvent → Bool
  | answer _ => true
  | _ => false

end LookupEvent

/-- The query function increases the counter of answers. -/
def Answer.succeeded {δ : Type} : Answer δ → Bool
  | .failed => false
  | .answered _ => true
  | .halt _ => true

/-- A computation of a lookup. -/
abbrev LookupOp (W : Type) (α : Type) : Type := Exec LookupEvent Fault W α

namespace Net

variable {W δ : Type} (net : Net W)

/-! ## The loops -/

/-- A computation of the session, as a part of a lookup. -/
def inLookup {α : Type} (m : Op W α) : LookupOp W α := m.retell fun e => [.shows e]

/-- A call of the query function. -/
def ask (query : Peer → Op W (Answer δ)) (peer : Peer) : LookupOp W (Answer δ) := do
  Exec.emit (.asks peer.key)
  let answer ← inLookup (query peer)
  -- A value is counted, too, before it halts the lookup.
  if answer.succeeded then Exec.emit (.answer peer.key)
  return answer

/-- `lookup_count`, an int, as the comparison with the unsigned `lookup_ctr` reads it. -/
def lookupCount (size : ℕ) : UInt32 :=
  -- `std::min` of two ints; from `2^31` entries on the cast size may be negative.
  (if Int32.ofNat size < Int32.ofNat peerLookupAlpha then Int32.ofNat size
    else Int32.ofNat peerLookupAlpha).toUInt32

/-- The inner loop of `lookup_helper`, with the number of turns that it is given, `j`, `lookup_ctr`,
`queried`, and `closest_peers`. The bound of `j` is the size of the list at each turn. -/
def innerLoop (query : Peer → Op W (Answer δ)) (lookupCount : UInt32) :
    ℕ → ℕ → UInt32 → List Key → List Peer → LookupOp W (Option δ × List Key × List Peer)
  | 0, _, _, _, _ => Exec.fault .diverges
  | turns + 1, j, lookupCtr, queried, closest =>
    -- `j` is an int: the increment that led here overflowed.
    if j = 2^31 then Exec.fault .overflow
    else if h : j < closest.length then
      if lookupCount ≤ lookupCtr then pure (none, queried, closest)
      else
        let otherPeer := closest[j]
        if otherPeer.key ∈ queried then
          innerLoop query lookupCount turns (j + 1) lookupCtr queried closest
        else do
          match ← ask query otherPeer with
          | .failed =>
            innerLoop query lookupCount turns (j + 1) lookupCtr (otherPeer.key :: queried) closest
          | .answered found =>
            innerLoop query lookupCount turns (j + 1) (lookupCtr + 1) (otherPeer.key :: queried)
              (closest ++ found)
          | .halt value => return (some value, queried, closest)
    else pure (none, queried, closest)

/-- The outer loop of `lookup_helper`, with the number of rounds that are left. -/
def outerLoop (turns : ℕ) (searchKey : Key) (query : Peer → Op W (Answer δ)) :
    ℕ → List Key → ℕ → Dist → List Peer → LookupOp W (Option δ × List Peer)
  | 0, _, _, _, closest => pure (none, closest)
  | rounds + 1, queried, size, minDist, closest => do
    Exec.emit .round
    let (halted, queried, closest) ←
      innerLoop query (lookupCount closest.length) turns 0 0 queried closest
    if halted.isSome then return (halted, closest)
    let closest := (sortByDist searchKey (uniquePeers closest)).take kbucketMax
    match closest with
    | [] => Exec.fault .outOfRange
    | first :: _ =>
      let newMinDist := Dist.between searchKey first.key
      if closest.length ≤ size && newMinDist.ge minDist then return (none, closest)
      outerLoop turns searchKey query rounds queried closest.length newMinDist closest

/-- `Session::lookup_helper`, with its loops. -/
def lookupHelperLoops (turns : ℕ) (searchKey : Key) (closest : List Peer)
    (query : Peer → Op W (Answer δ)) : LookupOp W (Option δ × List Peer) := do
  let localPeers ← inLookup (net.closestPeers searchKey (UInt32.ofNat kbucketMax))
  let minDist := localPeers.foldl (fun d p => d.min (Dist.between searchKey p.key)) Dist.max
  outerLoop turns searchKey query maxLookupIters [] closest.length minDist
    (sortByDist searchKey (closest ++ localPeers))

/-- The list of peers stays below `2^31` entries: an answer adds at most `most`, to the list that
the lookup starts with and to the one that a later round starts with. -/
structure Fits (searchKey : Key) (closest : List Peer) (query : Peer → Op W (Answer δ)) (w : W)
    (most : ℕ) : Prop where
  /-- What an answer adds. -/
  found : ∀ peer w' peers, (query peer w').result = .ok (.answered peers) → peers.length ≤ most
  /-- What the first round starts with: the given list, and the closest of the router. -/
  start : ∀ localPeers,
    (net.closestPeers searchKey (UInt32.ofNat kbucketMax) w).result = .ok localPeers →
      closest.length + localPeers.length + peerLookupAlpha * most < 2^31
  /-- What a later round starts with. -/
  later : kbucketMax + peerLookupAlpha * most < 2^31

/-- Below `2^31` entries the comparison reads what `std::min` of the numbers is. -/
theorem toNat_lookupCount {size : ℕ} (h : size < 2^31) :
    (lookupCount size).toNat = min peerLookupAlpha size := by
  have hlt : Int32.ofNat size < Int32.ofNat peerLookupAlpha ↔ size < peerLookupAlpha := by
    rw [Int32.lt_iff_toInt_lt, Int32.toInt_ofNat_of_lt h, Int32.toInt_ofNat_of_lt (by decide)]
    exact Int.ofNat_lt
  unfold lookupCount
  simp only [hlt]
  split_ifs with hsize
  · rw [Int32.toUInt32_ofNat', UInt32.toNat_ofNat_of_lt' (lt_trans hsize (by decide)),
      min_eq_right hsize.le]
  · rw [Int32.toUInt32_ofNat', UInt32.toNat_ofNat_of_lt' (by decide), min_eq_left (not_lt.1 hsize)]

/-! ## The loops end -/

/-- What the session shows of a lookup. -/
def sessionView {α : Type} (m : LookupOp W α) : Op W α := m.retell LookupEvent.sessionEvents

/-- Both computations are seen. -/
theorem sessionView_bind {α β : Type} (m : LookupOp W α) (f : α → LookupOp W β) :
    sessionView (m >>= f) = sessionView m >>= fun a => sessionView (f a) := Exec.retell_bind _ m f

/-- A part of the session is seen as it is. -/
theorem sessionView_inLookup {α : Type} (m : Op W α) : sessionView (inLookup m) = m := by
  rw [sessionView, inLookup, Exec.retell_retell]
  exact Exec.retell_self m

/-- Only what comes after an event of the lookup is seen. -/
theorem sessionView_emit_bind {α : Type} {e : LookupEvent} (he : e.sessionEvents = [])
    (f : Unit → LookupOp W α) : sessionView (Exec.emit e >>= f) = sessionView (f ()) := by
  rw [sessionView_bind, sessionView, Exec.retell_emit _ he, Exec.pure_bind]

/-- A call of the query function is seen as the query. -/
theorem sessionView_ask_bind {α : Type} (query : Peer → Op W (Answer δ)) (peer : Peer)
    (f : Answer δ → LookupOp W α) :
    sessionView (ask query peer >>= f) = query peer >>= fun answer => sessionView (f answer) := by
  have hask : sessionView (ask query peer) = query peer := by
    rw [ask, sessionView_emit_bind rfl, sessionView_bind, sessionView_inLookup]
    refine Eq.trans (congrArg _ (funext fun answer => ?_)) (Exec.bind_pure (query peer))
    cases answer.succeeded with
    | false => rfl
    | true => exact sessionView_emit_bind rfl _
  rw [sessionView_bind, hask]

/-- A counter below another one is not the last number. -/
theorem toNat_succ_of_not_le {m n : UInt32} (h : ¬m ≤ n) : (n + 1).toNat = n.toNat + 1 := by
  have hlt := UInt32.lt_iff_toNat_lt.1 (UInt32.not_le.1 h)
  have hm := m.toNat_lt
  rw [UInt32.toNat_add, UInt32.toNat_one, Nat.mod_eq_of_lt (by omega)]

/-- With enough turns the inner loop is seen as the round of the model: the peers that are still to be
visited are those from the index on. -/
theorem innerLoop_settles {query : Peer → Op W (Answer δ)} {most : ℕ}
    (hfound : ∀ peer w' peers, (query peer w').result = .ok (.answered peers) → peers.length ≤ most)
    (lookupCount : UInt32) :
    ∀ (count : ℕ) (pending : List Peer) (j : ℕ) (lookupCtr : UInt32) (queried : List Key)
      (closest : List Peer) (w : W), count = lookupCount.toNat - lookupCtr.toNat →
      pending = closest.drop j → j ≤ closest.length → closest.length + count * most < 2^31 →
      Exec.Settles
        (fun turns => sessionView (innerLoop query lookupCount turns j lookupCtr queried closest))
        (queryRound query count pending queried closest) w := by
  -- By the answers that the round still waits for, and then by the peers that are still to be
  -- visited: an answer adds peers, but the round waits for one answer less.
  intro count
  induction count with
  | zero =>
    intro pending j lookupCtr queried closest w hcount _ hle hroom
    have hdone : lookupCount ≤ lookupCtr := UInt32.le_iff_toNat_le.2 (by omega)
    have hsmall : j ≠ 2^31 := by omega
    refine Exec.settles_succ ⟨0, fun turns _ => ?_⟩
    unfold innerLoop
    simp only [if_neg hsmall, if_pos hdone, dite_eq_ite, ite_self]
    rfl
  | succ count ih =>
    intro pending
    induction pending with
    | nil =>
      intro j lookupCtr queried closest w _ hpending hle hroom
      have hend : ¬j < closest.length := not_lt.2 (List.drop_eq_nil_iff.1 hpending.symm)
      have hsmall : j ≠ 2^31 := by omega
      refine Exec.settles_succ ?_
      simp only [innerLoop, if_neg hsmall, dif_neg hend]
      exact Exec.settles_const _
    | cons peer rest ihrest =>
      intro j lookupCtr queried closest w hcount hpending _ hroom
      have hj : j < closest.length := by
        by_contra hend
        rw [List.drop_eq_nil_of_le (not_lt.1 hend)] at hpending
        exact nomatch hpending
      obtain ⟨rfl, rfl⟩ : peer = closest[j] ∧ rest = closest.drop (j + 1) := by
        rw [List.drop_eq_getElem_cons hj] at hpending
        exact List.cons.inj hpending
      have hmore : ¬lookupCount ≤ lookupCtr := fun h => by
        have hle := UInt32.le_iff_toNat_le.1 h
        omega
      have hsmall : j ≠ 2^31 := by omega
      refine Exec.settles_succ ?_
      unfold queryRound queryPending
      simp only [innerLoop, if_neg hsmall, dif_pos hj, if_neg hmore]
      split_ifs with hqueried
      · exact ihrest _ _ _ _ _ hcount rfl hj hroom
      · simp only [sessionView_ask_bind]
        refine (Exec.settles_const (query closest[j])).bind fun answer hanswer => ?_
        cases answer with
        | failed => exact ihrest _ _ _ _ _ hcount rfl hj hroom
        | answered found =>
          -- What is added comes behind the peers from the index on.
          have hfew := hfound _ _ _ hanswer
          have hctr := toNat_succ_of_not_le hmore
          rw [Nat.succ_mul] at hroom
          refine ih _ _ _ _ _ _ (by omega) (List.drop_append_of_le_length hj).symm ?_ ?_
          · rw [List.length_append]
            omega
          · rw [List.length_append]
            omega
        | halt value => exact ⟨0, fun _ _ => rfl⟩

/-- With enough turns for each of its rounds the outer loop is seen as the rounds of the model. -/
theorem outerLoop_settles {query : Peer → Op W (Answer δ)} {most : ℕ}
    (hfound : ∀ peer w' peers, (query peer w').result = .ok (.answered peers) → peers.length ≤ most)
    (hlater : kbucketMax + peerLookupAlpha * most < 2^31) (searchKey : Key) (rounds : ℕ) :
    ∀ (queried : List Key) (size : ℕ) (minDist : Dist) (closest : List Peer) (w : W),
      closest.length + peerLookupAlpha * most < 2^31 →
      Exec.Settles
        (fun turns => sessionView (outerLoop turns searchKey query rounds queried size minDist closest))
        (lookupRounds searchKey query rounds queried size minDist closest) w := by
  induction rounds with
  | zero => exact fun _ _ _ _ _ _ => ⟨0, fun _ _ => rfl⟩
  | succ rounds ih =>
    intro queried size minDist closest w hroom
    have hcount : min peerLookupAlpha closest.length = (lookupCount closest.length).toNat :=
      (toNat_lookupCount (by omega)).symm
    have hround : closest.length + min peerLookupAlpha closest.length * most < 2^31 :=
      lt_of_le_of_lt (Nat.add_le_add_left (Nat.mul_le_mul_right _ (min_le_left _ _)) _) hroom
    unfold outerLoop lookupRounds
    simp only [sessionView_emit_bind (e := .round) rfl, sessionView_bind]
    refine (innerLoop_settles hfound _ _ closest 0 0 queried closest w hcount rfl (Nat.zero_le _)
      hround).bind fun r _ => ?_
    obtain ⟨halted, queried, closest⟩ := r
    simp only
    split_ifs
    · exact ⟨0, fun _ _ => rfl⟩
    · have hcut : ((sortByDist searchKey (uniquePeers closest)).take kbucketMax).length ≤ kbucketMax :=
        List.length_take_le _ _
      generalize (sortByDist searchKey (uniquePeers closest)).take kbucketMax = cut at hcut ⊢
      cases cut with
      | nil => exact ⟨0, fun _ _ => rfl⟩
      | cons first rest =>
        simp only
        split_ifs
        · exact ⟨0, fun _ _ => rfl⟩
        · exact ih _ _ _ _ _ (lt_of_le_of_lt (Nat.add_le_add_right hcut _) hlater)

/-- With enough turns the lookup is seen as the one of the model, which has no bound. -/
theorem lookupHelperLoops_settles {searchKey : Key} {closest : List Peer}
    {query : Peer → Op W (Answer δ)} {w : W} {most : ℕ} (h : net.Fits searchKey closest query w most) :
    Exec.Settles (fun turns => sessionView (net.lookupHelperLoops turns searchKey closest query))
      (net.lookupHelper searchKey closest query) w := by
  unfold lookupHelperLoops lookupHelper
  simp only [sessionView_bind, sessionView_inLookup]
  refine (Exec.settles_const _).bind fun localPeers hlocal => ?_
  refine outerLoop_settles h.found h.later searchKey _ _ _ _ _ _ ?_
  rw [sortByDist, List.length_insertionSort, List.length_append]
  exact h.start _ hlocal

/-- Nothing but a query, or the access to the first element of an empty list, stops a lookup. -/
theorem lookupHelper_stops (searchKey : Key) (closest : List Peer) (query : Peer → Op W (Answer δ))
    (w : W) (e : Fault) (he : (net.lookupHelper searchKey closest query w).result = .error e) :
    e = .outOfRange ∨ ∃ peer w', (query peer w').result = .error e := by
  have hquery : Gathers (fun _ => True) (fun _ _ => True) query
      fun e => e = .outOfRange ∨ ∃ peer w', (query peer w').result = .error e := by
    refine fun peer => ⟨fun _ _ => trivial, fun _ answer _ _ => ?_, fun w' e _ he => .inr ⟨peer, w', he⟩⟩
    cases answer <;> trivial
  unfold lookupHelper at he
  rw [Exec.bind_of_ok (m := net.closestPeers _ _) rfl] at he
  exact (lookupRounds_yields ⟨trivial, fun _ _ => trivial⟩ hquery searchKey maxLookupIters [] _ _ _
    fun _ => .inl rfl).faults _ e trivial he

end Net

/-! ## What an observer sees -/

/-- What an observer of a lookup keeps: the keys that were asked, the last one first, and how many
answers the round has, of which it allows `quota`. -/
structure Asked (quota : ℕ) where
  /-- The keys. -/
  keys : List Key
  /-- The answers. -/
  answers : ℕ
  /-- No key was asked twice. -/
  nodup : keys.Nodup
  /-- The round has no more answers than that. -/
  few : answers ≤ quota

namespace Asked

variable {quota : ℕ}

/-- Before the lookup. -/
def start : Asked quota := ⟨[], 0, List.nodup_nil, Nat.zero_le _⟩

/-- In the next round. -/
def nextRound (x : Asked quota) : Asked quota := { x with answers := 0, few := Nat.zero_le _ }

/-- With another key. -/
def ask (x : Asked quota) (key : Key) (h : key ∉ x.keys) : Asked quota :=
  { x with keys := key :: x.keys, nodup := List.nodup_cons.2 ⟨h, x.nodup⟩ }

/-- With another answer. -/
def count (x : Asked quota) (h : x.answers < quota) : Asked quota :=
  { x with answers := x.answers + 1, few := h }

/-- After an event; `none` if it is a key that was asked before, or an answer too many. -/
def after (x : Asked quota) : LookupEvent → Option (Asked quota)
  | .round => some x.nextRound
  | .asks key => if h : key ∈ x.keys then none else some (x.ask key h)
  | .answer _ => if h : x.answers < quota then some (x.count h) else none
  | .shows _ => some x

/-- The observer sees the events, none of which is refused. -/
def Sees (x : Asked quota) (events : List LookupEvent) (y : Asked quota) : Prop :=
  events.foldlM after x = some y

/-- One after the other. -/
theorem sees_append {x z : Asked quota} {events events' : List LookupEvent} :
    x.Sees (events ++ events') z ↔ ∃ y, x.Sees events y ∧ y.Sees events' z := by
  simp [Sees, List.foldlM_append, Option.bind_eq_some_iff]

theorem sees_singleton {x y : Asked quota} {e : LookupEvent} : x.Sees [e] y ↔ x.after e = some y := by
  simp [Sees]

theorem sees_round (x : Asked quota) : x.Sees [.round] x.nextRound := sees_singleton.2 rfl

theorem sees_asks {x : Asked quota} {key : Key} (h : key ∉ x.keys) : x.Sees [.asks key] (x.ask key h) :=
  sees_singleton.2 (dif_neg h)

theorem sees_answer {x : Asked quota} (h : x.answers < quota) (key : Key) :
    x.Sees [.answer key] (x.count h) := sees_singleton.2 (dif_pos h)

theorem observes_sees : Exec.Observes (@Sees quota) where
  nil _ := rfl
  append h h' := sees_append.2 ⟨_, h, h'⟩

/-- What the observer has after one event. -/
theorem after_eq {x y : Asked quota} {e : LookupEvent} (h : x.after e = some y) :
    y.keys = e.askedKeys ++ x.keys ∧
      (e ≠ .round → y.answers = x.answers + if e.isAnswer then 1 else 0) := by
  cases e with
  | round =>
    obtain rfl := Option.some.inj h
    exact ⟨rfl, fun hne => absurd rfl hne⟩
  | asks key =>
    simp only [after] at h
    split_ifs at h
    obtain rfl := Option.some.inj h
    exact ⟨rfl, fun _ => rfl⟩
  | answer key =>
    simp only [after] at h
    split_ifs at h
    obtain rfl := Option.some.inj h
    exact ⟨rfl, fun _ => rfl⟩
  | shows e =>
    obtain rfl := Option.some.inj h
    exact ⟨rfl, fun _ => rfl⟩

/-- The observer has the keys that were asked. -/
theorem Sees.keys_eq {x y : Asked quota} {events : List LookupEvent} (h : x.Sees events y) :
    y.keys = (events.reverse.flatMap LookupEvent.askedKeys) ++ x.keys := by
  induction events generalizing x with
  | nil =>
    obtain rfl : x = y := Option.some.inj h
    rfl
  | cons e rest ih =>
    obtain ⟨z, hz, hrest⟩ := sees_append.1 (show x.Sees ([e] ++ rest) y from h)
    rw [ih hrest, (after_eq (sees_singleton.1 hz)).1]
    simp

/-- The observer has the answers of a round. -/
theorem Sees.answers_eq {x y : Asked quota} {events : List LookupEvent} (h : x.Sees events y)
    (hround : LookupEvent.round ∉ events) :
    y.answers = x.answers + events.countP LookupEvent.isAnswer := by
  induction events generalizing x with
  | nil =>
    obtain rfl : x = y := Option.some.inj h
    rfl
  | cons e rest ih =>
    obtain ⟨z, hz, hrest⟩ := sees_append.1 (show x.Sees ([e] ++ rest) y from h)
    rw [List.mem_cons, not_or] at hround
    rw [ih hrest hround.2, (after_eq (sees_singleton.1 hz)).2 fun he => hround.1 he.symm,
      List.countP_cons]
    omega

end Asked

namespace Net

variable {W δ : Type} (net : Net W)

/-- A part of the session leaves the observer in place. -/
theorem inLookup_moves {quota : ℕ} {α : Type} (x : Asked quota) (m : Op W α) :
    Exec.Moves Asked.Sees x (inLookup m) fun _ y => y = x := by
  refine Exec.moves_of_unmoved Asked.observes_sees fun w e he => ?_
  obtain ⟨e', -, he⟩ := List.mem_flatMap.1 he
  obtain rfl := List.eq_of_mem_singleton he
  rfl

/-- A call of the query function asks a key that was not asked, and is answered at most once. -/
theorem ask_moves {quota : ℕ} {x : Asked quota} (query : Peer → Op W (Answer δ)) {peer : Peer}
    (hkey : peer.key ∉ x.keys) (hfew : x.answers < quota) :
    Exec.Moves Asked.Sees x (ask query peer) fun answer y =>
      y.keys = peer.key :: x.keys ∧ y.answers = x.answers + answer.succeeded.toNat := by
  refine (Exec.moves_emit (Asked.sees_asks hkey)).bind Asked.observes_sees fun _ y hy =>
    (inLookup_moves y (query peer)).bind Asked.observes_sees fun answer y' hy' => ?_
  subst hy hy'
  split_ifs with hanswer
  · have hroom : (x.ask peer.key hkey).answers < quota := hfew
    refine (Exec.moves_emit (Asked.sees_answer hroom peer.key)).bind Asked.observes_sees
      fun _ y hy => Exec.moves_pure Asked.observes_sees ?_
    subst hy
    rw [hanswer]
    exact ⟨rfl, rfl⟩
  · rw [Bool.not_eq_true] at hanswer
    refine Exec.moves_pure Asked.observes_sees ?_
    rw [hanswer]
    exact ⟨rfl, rfl⟩

/-- The inner loop asks only keys that were not asked, and ends its round with the answers that it
waits for. It keeps the keys that were asked. -/
theorem innerLoop_moves {quota : ℕ} (query : Peer → Op W (Answer δ)) {lookupCount : UInt32}
    (hcount : lookupCount.toNat ≤ quota) (turns : ℕ) :
    ∀ (x : Asked quota) (j : ℕ) (lookupCtr : UInt32) (closest : List Peer), x.answers = lookupCtr.toNat →
      Exec.Moves Asked.Sees x (innerLoop query lookupCount turns j lookupCtr x.keys closest)
        fun r y => r.1 = none → y.keys = r.2.1 := by
  induction turns with
  | zero => exact fun _ _ _ _ _ => Exec.moves_fault Asked.observes_sees _
  | succ turns ih =>
    intro x j lookupCtr closest hctr
    have hdone : Exec.Moves Asked.Sees x
        (pure (none, x.keys, closest) : LookupOp W (Option δ × List Key × List Peer))
        fun r y => r.1 = none → y.keys = r.2.1 := Exec.moves_pure Asked.observes_sees fun _ => rfl
    unfold innerLoop
    by_cases hover : j = 2^31
    · rw [if_pos hover]
      exact Exec.moves_fault Asked.observes_sees _
    · rw [if_neg hover]
      by_cases hj : j < closest.length
      · rw [dif_pos hj]
        by_cases hfull : lookupCount ≤ lookupCtr
        · rw [if_pos hfull]
          exact hdone
        · rw [if_neg hfull]
          have hlt := UInt32.lt_iff_toNat_lt.1 (UInt32.not_le.1 hfull)
          dsimp only
          split_ifs with hqueried
          · exact ih x _ _ _ hctr
          · refine (ask_moves query hqueried (by omega)).bind Asked.observes_sees fun answer y hy => ?_
            rw [← hy.1]
            cases answer with
            -- A failure does not count towards the round.
            | failed => exact ih y _ _ _ (hy.2.trans hctr)
            | answered found =>
              have hmore : y.answers = x.answers + 1 := hy.2
              exact ih y _ _ _ (by rw [hmore, hctr, toNat_succ_of_not_le hfull])
            | halt value => exact Exec.moves_pure Asked.observes_sees fun hnone => nomatch hnone
      · rw [dif_neg hj]
        exact hdone

/-- The rounds ask only keys that were not asked. What the first one waits for depends on the list
that it starts with. -/
theorem outerLoop_moves {quota : ℕ} (hquota : peerLookupAlpha ≤ quota) (turns : ℕ) (searchKey : Key)
    (query : Peer → Op W (Answer δ)) (rounds : ℕ) :
    ∀ (x : Asked quota) (size : ℕ) (minDist : Dist) (closest : List Peer),
      (lookupCount closest.length).toNat ≤ quota →
      Exec.Moves Asked.Sees x (outerLoop turns searchKey query rounds x.keys size minDist closest)
        fun _ _ => True := by
  induction rounds with
  | zero => exact fun _ _ _ _ _ => Exec.moves_pure Asked.observes_sees trivial
  | succ rounds ih =>
    intro x size minDist closest hcount
    unfold outerLoop
    refine (Exec.moves_emit x.sees_round).bind Asked.observes_sees fun _ y hy => ?_
    subst hy
    refine (innerLoop_moves query hcount turns x.nextRound 0 0 closest rfl).bind
      Asked.observes_sees fun r y hy => ?_
    obtain ⟨halted, queried, closest⟩ := r
    simp only
    cases halted with
    | some value => exact Exec.moves_pure Asked.observes_sees trivial
    | none =>
      -- The list is cut, but the keys that were asked stay.
      obtain rfl : y.keys = queried := hy rfl
      simp only [Option.isSome_none, Bool.false_eq_true, if_false]
      have hcut : ((sortByDist searchKey (uniquePeers closest)).take kbucketMax).length ≤ kbucketMax :=
        List.length_take_le _ _
      generalize (sortByDist searchKey (uniquePeers closest)).take kbucketMax = cut at hcut ⊢
      cases cut with
      | nil => exact Exec.moves_fault Asked.observes_sees _
      | cons first rest =>
        simp only
        split_ifs
        · exact Exec.moves_pure Asked.observes_sees trivial
        · refine ih y _ _ _ ?_
          rw [toNat_lookupCount (lt_of_le_of_lt hcut (by decide))]
          exact (min_le_left _ _).trans hquota

/-- What a lookup shows: first the reading of the closest peers, and then the rounds. -/
theorem events_lookupHelperLoops (turns : ℕ) {searchKey : Key} (closest : List Peer)
    (query : Peer → Op W (Answer δ)) {w : W} {localPeers : List Peer}
    (hlocal : (net.closestPeers searchKey (UInt32.ofNat kbucketMax) w).result = .ok localPeers) :
    (net.lookupHelperLoops turns searchKey closest query w).events =
      (inLookup (net.closestPeers searchKey (UInt32.ofNat kbucketMax)) w).events ++
        (outerLoop turns searchKey query maxLookupIters [] closest.length
          (localPeers.foldl (fun d p => d.min (Dist.between searchKey p.key)) Dist.max)
          (sortByDist searchKey (closest ++ localPeers))
          (net.closestPeers searchKey (UInt32.ofNat kbucketMax) w).state).events := by
  have hfirst : (inLookup (net.closestPeers searchKey (UInt32.ofNat kbucketMax)) w).result =
      .ok localPeers := hlocal
  unfold lookupHelperLoops
  rw [Exec.bind_of_ok hfirst]
  rfl

/-- An observer sees a whole lookup, if it allows what the first round waits for. -/
theorem lookupHelperLoops_moves {quota : ℕ} (hquota : peerLookupAlpha ≤ quota) (turns : ℕ)
    (searchKey : Key) (closest : List Peer) (query : Peer → Op W (Answer δ)) (w : W)
    (hcount : ∀ localPeers,
      (net.closestPeers searchKey (UInt32.ofNat kbucketMax) w).result = .ok localPeers →
        (lookupCount (closest.length + localPeers.length)).toNat ≤ quota) :
    ∃ y, (Asked.start : Asked quota).Sees
      (net.lookupHelperLoops turns searchKey closest query w).events y := by
  obtain ⟨localPeers, hlocal⟩ : ∃ localPeers,
      (net.closestPeers searchKey (UInt32.ofNat kbucketMax) w).result = .ok localPeers := ⟨_, rfl⟩
  obtain ⟨_, rfl, hfirst⟩ := (inLookup_moves (Asked.start : Asked quota)
    (net.closestPeers searchKey (UInt32.ofNat kbucketMax)) w).1 localPeers hlocal
  have hlength : (sortByDist searchKey (closest ++ localPeers)).length =
      closest.length + localPeers.length := by
    rw [sortByDist, List.length_insertionSort, List.length_append]
  have hrest := outerLoop_moves hquota turns searchKey query maxLookupIters Asked.start closest.length
    (localPeers.foldl (fun d p => d.min (Dist.between searchKey p.key)) Dist.max)
    (sortByDist searchKey (closest ++ localPeers)) (by rw [hlength]; exact hcount _ hlocal)
  obtain ⟨z, hz⟩ := hrest.seen (net.closestPeers searchKey (UInt32.ofNat kbucketMax) w).state
  rw [net.events_lookupHelperLoops turns closest query hlocal]
  exact ⟨z, Asked.sees_append.2 ⟨_, hfirst, hz⟩⟩

/-- No key is asked twice, whatever the list that the lookup starts with. -/
theorem lookupHelperLoops_once (searchKey : Key) (closest : List Peer) (query : Peer → Op W (Answer δ))
    (w : W) (turns : ℕ) :
    ((net.lookupHelperLoops turns searchKey closest query w).events.flatMap
      LookupEvent.askedKeys).Nodup := by
  -- No counter of 32 bits exceeds this.
  obtain ⟨y, hy⟩ := net.lookupHelperLoops_moves (show peerLookupAlpha ≤ 2^32 by decide) turns
    searchKey closest query w fun _ _ => (UInt32.toNat_lt _).le
  have hkeys := y.nodup
  -- The keys of the observer are those that were asked, from the last to the first.
  rw [hy.keys_eq, Asked.start, List.append_nil] at hkeys
  exact ((List.reverse_perm _).flatMap_right _).nodup_iff.1 hkeys

/-- No round has more than `PEER_LOOKUP_ALPHA` answers, if the list that the lookup starts with is
shorter than `2^31`. -/
theorem lookupHelperLoops_few {searchKey : Key} {closest : List Peer} {query : Peer → Op W (Answer δ)}
    {w : W} (hshort : ∀ localPeers,
      (net.closestPeers searchKey (UInt32.ofNat kbucketMax) w).result = .ok localPeers →
        closest.length + localPeers.length < 2^31) (turns : ℕ) {before part after : List LookupEvent}
    (heq : (net.lookupHelperLoops turns searchKey closest query w).events = before ++ part ++ after)
    (hround : LookupEvent.round ∉ part) : part.countP LookupEvent.isAnswer ≤ peerLookupAlpha := by
  obtain ⟨y, hy⟩ := net.lookupHelperLoops_moves (le_refl peerLookupAlpha) turns searchKey closest
    query w fun localPeers hlocal => by
      rw [toNat_lookupCount (hshort _ hlocal)]
      exact min_le_left _ _
  rw [heq] at hy
  obtain ⟨y', hy', -⟩ := Asked.sees_append.1 hy
  obtain ⟨x, -, hx⟩ := Asked.sees_append.1 hy'
  have hanswers := hx.answers_eq hround
  have hfew := y'.few
  omega

/-- A lookup asks no key more than once, has at most `PEER_LOOKUP_ALPHA` answers in a round, and
ends. -/
structure LooksUpOnce (searchKey : Key) (closest : List Peer) (query : Peer → Op W (Answer δ)) (w : W) :
    Prop where
  /-- The keys that are asked are distinct, whatever turns the inner loop is given. -/
  once : ∀ turns, ((net.lookupHelperLoops turns searchKey closest query w).events.flatMap
    LookupEvent.askedKeys).Nodup
  /-- The answers in what belongs to one round. -/
  few : ∀ turns before part after,
    (net.lookupHelperLoops turns searchKey closest query w).events = before ++ part ++ after →
    LookupEvent.round ∉ part → part.countP LookupEvent.isAnswer ≤ peerLookupAlpha
  /-- With enough turns the run is the one of the lookup that is given none. -/
  ends : ∃ enough, ∀ turns, enough ≤ turns →
    sessionView (net.lookupHelperLoops turns searchKey closest query) w =
      net.lookupHelper searchKey closest query w
  /-- That one stops only where a query does, and at the first element of an empty list. -/
  stops : ∀ e, (net.lookupHelper searchKey closest query w).result = .error e →
    e = .outOfRange ∨ ∃ peer w', (query peer w').result = .error e

/-- Whatever the list that it starts with, and whatever is answered, a lookup asks nobody twice. As
long as the list stays below `2^31` entries it ends, and its rounds have no more answers than they
wait for. -/
theorem lookupHelper_looksUpOnce (searchKey : Key) (closest : List Peer) (query : Peer → Op W (Answer δ))
    (w : W) :
    (∀ turns, ((net.lookupHelperLoops turns searchKey closest query w).events.flatMap
      LookupEvent.askedKeys).Nodup) ∧
      ∀ most, net.Fits searchKey closest query w most → net.LooksUpOnce searchKey closest query w := by
  have honce := net.lookupHelperLoops_once searchKey closest query w
  refine ⟨honce, fun most h => ?_⟩
  have hshort : ∀ localPeers,
      (net.closestPeers searchKey (UInt32.ofNat kbucketMax) w).result = .ok localPeers →
        closest.length + localPeers.length < 2^31 := fun localPeers hlocal => by
    have hroom := h.start localPeers hlocal
    omega
  exact {
    once := honce
    few := fun turns _ _ _ heq hround => net.lookupHelperLoops_few hshort turns heq hround
    ends := net.lookupHelperLoops_settles h
    stops := net.lookupHelper_stops searchKey closest query w }

/-- A session that knows one peer. -/
abbrev fourthKnown : Session := ⟨Router.new 0 ⟨0, [0]⟩ ⟨4, [4]⟩, ∅, 0⟩

/-- It starts with its one peer. -/
theorem closestPeers_fourthKnown :
    ((Environment.answering ⟨0, [0]⟩ []).closestPeers 0 (UInt32.ofNat kbucketMax) fourthKnown).result =
      .ok [⟨4, [4]⟩] := by decide +kernel

/-- A lookup that starts with two more peers, one of them twice, where the peer 5 fails and each
other one names four. -/
theorem lookupHelper_looksUpOnce_four :
    (Environment.answering ⟨0, [0]⟩ []).LooksUpOnce 0 [⟨5, [5]⟩, ⟨6, [6]⟩, ⟨5, [5]⟩]
      (fun peer => pure (if peer.key = 5 then (.failed : Answer Empty)
        else .answered [⟨4, [4]⟩, ⟨7, [7]⟩, ⟨8, [8]⟩, ⟨7, [7]⟩])) fourthKnown := by
  refine ((Environment.answering ⟨0, [0]⟩ []).lookupHelper_looksUpOnce _ _ _ _).2 4 ⟨?_, ?_, by decide⟩
  · intro peer w' peers h
    have hanswer := Except.ok.inj h
    split_ifs at hanswer
    obtain rfl := Answer.answered.inj hanswer
    exact le_rfl
  · intro localPeers h
    obtain rfl := Except.ok.inj (closestPeers_fourthKnown.symm.trans h)
    decide

/-! ## A list of `2^31` entries -/

/-- Three peers, and many entries of the one that the session knows. -/
def crowd (n : ℕ) : List Peer := [⟨1, [1]⟩, ⟨2, [2]⟩, ⟨3, [3]⟩] ++ List.replicate n ⟨4, [4]⟩

/-- Each peer answers that it knows nobody. -/
def nobody (_ : Peer) : Op W (Answer Empty) := pure (.answered [])

/-- The entries are in the order of their distances from 0. -/
theorem sortByDist_crowd (n : ℕ) : sortByDist 0 (crowd n) = crowd n := by
  refine List.Pairwise.insertionSort_eq (List.pairwise_append.2 ⟨by decide +kernel, ?_, ?_⟩)
  · exact List.pairwise_replicate.2 (.inr (by decide +kernel))
  · intro p hp q hq
    rw [List.eq_of_mem_replicate hq]
    revert p
    decide +kernel

/-- A peer that answers that it knows nobody is asked, and the round goes on. -/
theorem innerLoop_nobody {lookupCount : UInt32} {turns j : ℕ} {lookupCtr : UInt32} {queried : List Key}
    {closest : List Peer} {peer : Peer} (hover : j ≠ 2^31) (hpeer : closest[j]? = some peer)
    (hmore : ¬lookupCount ≤ lookupCtr) (hqueried : peer.key ∉ queried) (w : W) :
    innerLoop nobody lookupCount (turns + 1) j lookupCtr queried closest w =
      let rest :=
        innerLoop nobody lookupCount turns (j + 1) (lookupCtr + 1) (peer.key :: queried) closest w
      ⟨.asks peer.key :: .answer peer.key :: rest.events, rest.state, rest.result⟩ := by
  obtain ⟨hj, rfl⟩ := List.getElem?_eq_some_iff.1 hpeer
  have hask : ask nobody closest[j] w =
      ⟨[.asks closest[j].key, .answer closest[j].key], w, .ok (.answered [])⟩ := rfl
  rw [innerLoop, if_neg hover, dif_pos hj, if_neg hmore]
  simp only [if_neg hqueried]
  rw [Exec.bind_run hask]
  simp only [List.append_nil, List.cons_append, List.nil_append]

/-- Four entries answer in the first round, if it is the cast of `2^31` that the counter is
compared with. -/
theorem events_crowd {n : ℕ} (hcount : lookupCount (n + 4) = UInt32.ofNat (2^31)) (size : ℕ)
    (minDist : Dist) (w : W) :
    (outerLoop 4 0 nobody maxLookupIters [] size minDist (crowd (n + 1)) w).events =
      [.round, .asks 1, .answer 1, .asks 2, .answer 2, .asks 3, .answer 3, .asks 4, .answer 4] := by
  have hlength : (crowd (n + 1)).length = n + 4 := by
    rw [crowd, List.length_append, List.length_replicate]
    simp only [List.length_cons, List.length_nil]
    omega
  have hturns : innerLoop nobody (UInt32.ofNat (2^31)) 4 0 0 [] (crowd (n + 1)) w =
      ⟨[.asks 1, .answer 1, .asks 2, .answer 2, .asks 3, .answer 3, .asks 4, .answer 4], w,
        .error .diverges⟩ := by
    rw [innerLoop_nobody (by decide) rfl (by decide) (by decide),
      innerLoop_nobody (by decide) rfl (by decide) (by decide),
      innerLoop_nobody (by decide) rfl (by decide) (by decide),
      innerLoop_nobody (by decide) rfl (by decide) (by decide)]
    rfl
  have hround : (Exec.emit .round : LookupOp W Unit) w = ⟨[.round], w, .ok ()⟩ := rfl
  rw [outerLoop, hlength, hcount, Exec.bind_run hround, Exec.bind_run_error hturns]
  rfl

/-- The fourth answer is one too many. -/
theorem not_looksUpOnce_crowd {n : ℕ} (hcount : lookupCount (n + 4) = UInt32.ofNat (2^31)) :
    ¬(Environment.answering ⟨0, [0]⟩ []).LooksUpOnce 0 (crowd n) nobody fourthKnown := by
  intro h
  have hlonger : crowd n ++ [⟨4, [4]⟩] = crowd (n + 1) := by
    rw [crowd, List.append_assoc, ← List.replicate_succ', crowd]
  have hevents := (Environment.answering ⟨0, [0]⟩ []).events_lookupHelperLoops 4 (crowd n) nobody
    closestPeers_fourthKnown
  rw [hlonger, sortByDist_crowd, events_crowd hcount] at hevents
  have hfew := h.few 4 (_ ++ [.round])
    [.asks 1, .answer 1, .asks 2, .answer 2, .asks 3, .answer 3, .asks 4, .answer 4] []
    (by rw [hevents, List.append_nil, List.append_assoc]; rfl) (by simp)
  exact absurd hfew (by decide)

/-- From `2^31` entries on a round has more answers than `PEER_LOOKUP_ALPHA`: the cast makes a
negative int of the size, and that is a large number where the counter is compared with it. -/
theorem not_looksUpOnce :
    ¬∀ (closest : List Peer) (query : Peer → Op Session (Answer Empty)) (w : Session),
      (Environment.answering ⟨0, [0]⟩ []).LooksUpOnce 0 closest query w :=
  fun h => not_looksUpOnce_crowd (n := 2^31 - 4) (by decide +kernel) (h _ _ _)

end Net

/-- Each peer that the first one names is asked once, though each of them names them all again. -/
example :
    let env := Environment.answering ⟨1, [1]⟩ [⟨1, [1]⟩, ⟨7, [7]⟩, ⟨0, [0]⟩, ⟨6, [6]⟩]
    (env.lookupHelperLoops 8 4 [] (env.nodeQueryFn 4)
      ⟨Router.new 0 ⟨0, [0]⟩ ⟨1, [1]⟩, ∅, 0⟩).events.flatMap LookupEvent.askedKeys = [1, 6, 7] := by
  decide +kernel

end Distft
