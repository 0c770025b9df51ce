import Distft.Session.Locking

/-!
# The passes over the chunks

One turn of the loops of `cleanup_chunks_thread_fn` and `republish_chunks_thread_fn`. Both lock the
chunks, collect the keys whose times are old enough by the clock (`selectKeys`), and work off the
keys before they unlock. What is wrong with them is small: the first subtracts the clock from the
time and not the time from the clock, and the second calls `publish`, which locks the chunks itself,
and leaves `last_published` as it is. So the first does what it is for only where no chunk is old
(`cleansExactly_iff`), and the second neither returns its lock (`keepsLock_iff`) nor gets a chunk off
its list (`republishResets_iff`) unless it has nothing to do.
-/

namespace Distft

/-- `CHUNK_EXPIRE_TIME`, in seconds. -/
abbrev chunkExpireTime : ℤ := 86400

/-- `CHUNK_REPUBLISH_TIME`, in seconds. -/
abbrev chunkRepublishTime : ℤ := 3600

/-- The difference of two times, the clock counting nanoseconds in 64 bits. -/
def timeDiff (time time' : Time) : Except Fault ℤ :=
  if -2^63 ≤ time - time' ∧ time - time' < 2^63 then .ok (time - time') else .error .overflow

/-- The test of `cleanup_chunks_thread_fn`. -/
def expireTest (now : Time) (chunk : Chunk) : Except Fault Bool := do
  -- The difference is positive for a time to come.
  let diff ← timeDiff chunk.originalPublish now
  return decide (chunkExpireTime * 10^9 ≤ diff)

/-- The test of `republish_chunks_thread_fn`. -/
def republishTest (now : Time) (chunk : Chunk) : Except Fault Bool := do
  let diff ← timeDiff now chunk.lastPublished
  let timeSincePublish := diff.tdiv (10^9)
  return decide (chunkRepublishTime ≤ timeSincePublish)

namespace Net

variable {W : Type} (net : Net W)

/-- The first loop of a pass: the keys of the chunks for which a test at the clock holds. -/
def selectKeys (test : Time → Chunk → Except Fault Bool) :
    List (Σ _ : Key, Chunk) → Op W (List Key)
  | [] => pure []
  | ⟨chunkKey, chunk⟩ :: rest => do
    let now ← net.clock
    let selected ← Exec.ofExcept (test now chunk)
    let keys ← selectKeys test rest
    return if selected then chunkKey :: keys else keys

/-- The second loop of `cleanup_chunks_thread_fn`. -/
def eraseKeys : List Key → Op W Unit
  | [] => pure ()
  | key :: rest => do
    net.modify fun s => ((), { s with chunks := s.chunks.erase key })
    eraseKeys rest

/-- A turn of a thread's loop: under the lock of the chunks, the keys for which a test holds are
worked off. -/
def chunksPass (test : Time → Chunk → Except Fault Bool) (work : List Key → Op W Unit) : Op W Unit := do
  lock .chunks
  let entries ← net.get fun s => s.chunks.entries
  let keys ← net.selectKeys test entries
  work keys
  unlock .chunks

/-- A turn of the loop of `Session::cleanup_chunks_thread_fn`. -/
def cleanupChunks : Op W Unit := net.chunksPass expireTest net.eraseKeys

/-- The second loop of `republish_chunks_thread_fn`. -/
def republishKeys : List Key → Op W Unit
  | [] => pure ()
  | key :: rest => do
    match ← net.get fun s => s.chunks.lookup key with
    -- `chunks[key]` makes an entry with a null pointer, which `publish` follows.
    | none => Exec.fault .badPointer
    | some chunk =>
      net.modify fun s => ((), { s with chunks := s.chunks.erase key })
      net.publish chunk false
      republishKeys rest

/-- A turn of the loop of `Session::republish_chunks_thread_fn`. -/
def republishChunks : Op W Unit := net.chunksPass republishTest net.republishKeys

/-- The world after readings of the clock. -/
def afterReadings (n : ℕ) (w : W) : W := (fun w => (net.now w).2)^[n] w

/-- A reading of the clock that a pass makes, counted from its start. -/
def reading (w : W) (i : ℕ) : Time := (net.now (net.afterReadings i w)).1

end Net

/-! ## The first loop -/

namespace Net

variable {W : Type} {net : Net W} {test : Time → Chunk → Except Fault Bool}

/-- A pass selects a key: its test holds at the reading of the clock that it makes there. -/
def Selects (net : Net W) (test : Time → Chunk → Except Fault Bool) (w : W)
    (entries : List (Σ _ : Key, Chunk)) (key : Key) : Prop :=
  ∃ i chunk, entries[i]? = some ⟨key, chunk⟩ ∧ test (net.reading w i) chunk = .ok true

/-- The first loop stops at a test that does. -/
theorem selectKeys_cons_error {w : W} {chunkKey : Key} {chunk : Chunk} {e : Fault}
    (rest : List (Σ _ : Key, Chunk)) (h : test (net.now w).1 chunk = .error e) :
    net.selectKeys test (⟨chunkKey, chunk⟩ :: rest) w = ⟨[], (net.now w).2, .error e⟩ := by
  have hclock : net.clock w = ⟨[], (net.now w).2, .ok (net.now w).1⟩ := rfl
  rw [selectKeys, Exec.bind_run hclock, h]
  rfl

/-- And goes on from one that has a value. -/
theorem selectKeys_cons_ok {w : W} {chunkKey : Key} {chunk : Chunk} {selected : Bool}
    (rest : List (Σ _ : Key, Chunk)) (h : test (net.now w).1 chunk = .ok selected) :
    net.selectKeys test (⟨chunkKey, chunk⟩ :: rest) w =
      (net.selectKeys test rest >>= fun keys =>
        pure (if selected then chunkKey :: keys else keys)) (net.now w).2 := by
  have hclock : net.clock w = ⟨[], (net.now w).2, .ok (net.now w).1⟩ := rfl
  rw [selectKeys, Exec.bind_run hclock, h]
  rfl

/-- The first key is selected by its own test, the others by theirs. -/
theorem selects_cons {w : W} {chunkKey : Key} {chunk : Chunk} {selected : Bool}
    (rest : List (Σ _ : Key, Chunk)) (h : test (net.now w).1 chunk = .ok selected) (key : Key) :
    net.Selects test w (⟨chunkKey, chunk⟩ :: rest) key ↔
      (key = chunkKey ∧ selected = true) ∨ net.Selects test (net.now w).2 rest key := by
  constructor
  · rintro ⟨_ | i, c, hi, hc⟩
    · obtain ⟨rfl, rfl⟩ : chunkKey = key ∧ chunk = c := by simpa using hi
      exact .inl ⟨rfl, Except.ok.inj (h.symm.trans hc)⟩
    · exact .inr ⟨i, c, hi, hc⟩
  · rintro (⟨rfl, rfl⟩ | ⟨i, c, hi, hc⟩)
    · exact ⟨0, chunk, rfl, h⟩
    · exact ⟨i + 1, c, hi, hc⟩

/-- The first loop of a pass shows nothing and reads the clock. It stops at the first test that does,
and otherwise every test has a value, and it returns the keys that are selected. -/
theorem selectKeys_run (net : Net W) (test : Time → Chunk → Except Fault Bool)
    (entries : List (Σ _ : Key, Chunk)) (w : W) :
    (∃ n e, net.selectKeys test entries w = ⟨[], net.afterReadings n w, .error e⟩ ∧
      ∃ i chunkKey chunk, entries[i]? = some ⟨chunkKey, chunk⟩ ∧
        test (net.reading w i) chunk = .error e) ∨
    ∃ keys, net.selectKeys test entries w = ⟨[], net.afterReadings entries.length w, .ok keys⟩ ∧
      (∀ i chunkKey chunk, entries[i]? = some ⟨chunkKey, chunk⟩ →
        ∃ b, test (net.reading w i) chunk = .ok b) ∧
      ∀ key, key ∈ keys ↔ net.Selects test w entries key := by
  induction entries generalizing w with
  | nil =>
    refine .inr ⟨[], rfl, fun i _ _ hi => (nomatch hi), fun key => ?_⟩
    simp [Selects]
  | cons entry rest ih =>
    obtain ⟨chunkKey, chunk⟩ := entry
    cases htest : test (net.now w).1 chunk with
    | error e => exact .inl ⟨1, e, selectKeys_cons_error rest htest, 0, chunkKey, chunk, rfl, htest⟩
    | ok selected =>
      have hrun : net.selectKeys test (⟨chunkKey, chunk⟩ :: rest) w = _ :=
        selectKeys_cons_ok rest htest
      rcases ih (net.now w).2 with ⟨n, e, hrest, i, key, c, hi, herror⟩ | ⟨keys, hrest, hvalue, hmem⟩
      · rw [Exec.bind_run_error hrest] at hrun
        exact .inl ⟨n + 1, e, hrun, i + 1, key, c, hi, herror⟩
      · rw [Exec.bind_run hrest] at hrun
        refine .inr ⟨if selected then chunkKey :: keys else keys, hrun, ?_, fun key => ?_⟩
        · intro i key c hi
          cases i with
          | zero =>
            obtain ⟨rfl, rfl⟩ : chunkKey = key ∧ chunk = c := by simpa using hi
            exact ⟨selected, htest⟩
          | succ i => exact hvalue i key c hi
        · rw [selects_cons rest htest, ← hmem]
          cases selected <;> simp

/-- Where no test holds, no key is selected. -/
theorem selectKeys_of_false {entries : List (Σ _ : Key, Chunk)} {w : W}
    (h : ∀ i key chunk, entries[i]? = some ⟨key, chunk⟩ →
      test (net.reading w i) chunk = .ok false) :
    net.selectKeys test entries w = ⟨[], net.afterReadings entries.length w, .ok []⟩ := by
  rcases net.selectKeys_run test entries w with
    ⟨n, e, -, i, key, chunk, hi, herror⟩ | ⟨keys, hselect, -, hmem⟩
  · rw [h i key chunk hi] at herror
    exact nomatch herror
  · obtain rfl : keys = [] := by
      refine List.eq_nil_iff_forall_not_mem.2 fun key hkey => ?_
      obtain ⟨i, chunk, hi, htest⟩ := (hmem key).1 hkey
      rw [h i key chunk hi] at htest
      exact nomatch htest
    exact hselect

/-- A pass whose first loop stops. -/
theorem chunksPass_error {work : List Key → Op W Unit} {w w' : W} {e : Fault}
    (h : net.selectKeys test (net.session w).chunks.entries w = ⟨[], w', .error e⟩) :
    net.chunksPass test work w = ⟨[.lock .chunks], w', .error e⟩ := by
  let m := net.selectKeys test (net.session w).chunks.entries >>= fun keys =>
    work keys >>= fun _ => unlock .chunks
  have hm : m w = ⟨[], w', .error e⟩ := Exec.bind_run_error h
  show (⟨.lock .chunks :: (m w).events, (m w).state, (m w).result⟩ : Run Event Fault W Unit) = _
  rw [hm]

/-- A pass whose first loop returns. -/
theorem chunksPass_ok {work : List Key → Op W Unit} {w w' : W} {keys : List Key}
    (h : net.selectKeys test (net.session w).chunks.entries w = ⟨[], w', .ok keys⟩) :
    let r := (work keys >>= fun _ => (unlock .chunks : Op W Unit)) w'
    net.chunksPass test work w = ⟨.lock .chunks :: r.events, r.state, r.result⟩ := by
  let m := net.selectKeys test (net.session w).chunks.entries >>= fun keys =>
    work keys >>= fun _ => unlock .chunks
  have hm : m w = (work keys >>= fun _ => (unlock .chunks : Op W Unit)) w' := Exec.bind_run h
  show (⟨.lock .chunks :: (m w).events, (m w).state, (m w).result⟩ : Run Event Fault W Unit) = _
  rw [hm]

end Net

namespace Environment

variable {W : Type} (env : Environment W)

/-- Readings of the clock leave the session as it is. -/
@[simp]
theorem session_afterReadings (n : ℕ) (w : W) :
    env.session (env.toNet.afterReadings n w) = env.session w := by
  induction n generalizing w with
  | zero => rfl
  | succ n ih => exact (ih _).trans (env.session_now w)

/-- A key has one entry. -/
theorem entry_unique {chunks : AList fun _ : Key => Chunk} {i j : ℕ} {key : Key} {chunk chunk' : Chunk}
    (hi : chunks.entries[i]? = some ⟨key, chunk⟩) (hj : chunks.entries[j]? = some ⟨key, chunk'⟩) :
    i = j := by
  have hkey : chunks.keys[i]? = chunks.keys[j]? := by
    simp only [AList.keys, List.keys, List.getElem?_map, hi, hj, Option.map_some]
  have hlt : i < chunks.keys.length := by
    simpa [AList.keys, List.keys] using (List.getElem?_eq_some_iff.1 hi).1
  exact (List.getElem?_inj hlt chunks.nodupKeys).1 hkey

/-- The entry of a key is what is found under it. -/
theorem lookup_of_entry {chunks : AList fun _ : Key => Chunk} {i : ℕ} {key : Key} {chunk : Chunk}
    (hi : chunks.entries[i]? = some ⟨key, chunk⟩) : chunks.lookup key = some chunk :=
  AList.mem_lookup_iff.2 (List.mem_of_getElem? hi)

/-- A key is selected by the test of its entry. -/
theorem selects_iff {chunks : AList fun _ : Key => Chunk} {i : ℕ} {key : Key} {chunk : Chunk}
    (hi : chunks.entries[i]? = some ⟨key, chunk⟩) (test : Time → Chunk → Except Fault Bool) (w : W) :
    env.toNet.Selects test w chunks.entries key ↔ test (env.toNet.reading w i) chunk = .ok true := by
  constructor
  · rintro ⟨j, chunk', hj, htest⟩
    obtain rfl := entry_unique hi hj
    obtain rfl : chunk = chunk' := by simpa [hi] using hj
    exact htest
  · exact fun htest => ⟨i, chunk, hi, htest⟩

/-! ## Cleaning up -/

/-- The second loop of `cleanup_chunks_thread_fn` removes the keys that it is given. -/
theorem eraseKeys_run (keys : List Key) (w : W) :
    ∃ w', env.eraseKeys keys w = ⟨[], w', .ok ()⟩ ∧
      ∀ key, (env.session w').chunks.lookup key =
        if key ∈ keys then none else (env.session w).chunks.lookup key := by
  induction keys generalizing w with
  | nil => exact ⟨w, rfl, fun key => by simp⟩
  | cons first rest ih =>
    obtain ⟨w', hrun, hlookup⟩ := ih (env.withSession { env.session w with
      chunks := (env.session w).chunks.erase first } w)
    refine ⟨w', hrun, fun key => ?_⟩
    rw [hlookup key, env.session_withSession]
    by_cases hkey : key = first
    · subst hkey
      simp
    · simp [hkey, AList.lookup_erase_ne hkey]

/-- The chunk's age at a time is at least `CHUNK_EXPIRE_TIME`. -/
def Expired (now : Time) (chunk : Chunk) : Prop :=
  chunkExpireTime * 10^9 ≤ now - chunk.originalPublish

/-- A cleanup pass returns, removes every chunk that has expired at the reading of the clock that the
pass makes there, and leaves every other entry as it is. -/
def CleansExactly (w : W) : Prop :=
  (env.cleanupChunks w).result = .ok () ∧
    (∀ i key chunk, (env.session w).chunks.entries[i]? = some ⟨key, chunk⟩ →
      (Expired (env.toNet.reading w i) chunk →
        (env.session (env.cleanupChunks w).state).chunks.lookup key = none) ∧
      (¬Expired (env.toNet.reading w i) chunk →
        (env.session (env.cleanupChunks w).state).chunks.lookup key = some chunk)) ∧
    ∀ key, (env.session w).chunks.lookup key = none →
      (env.session (env.cleanupChunks w).state).chunks.lookup key = none

/-- A difference that is small enough does not overflow. -/
theorem timeDiff_of_lt {time time' : ℤ} (hlo : -2^63 ≤ time - time') (hhi : time - time' < 2^63) :
    timeDiff time time' = .ok (time - time') := if_pos ⟨hlo, hhi⟩

/-- A difference that has a value is one of the times. -/
theorem timeDiff_eq {time time' : Time} {d : ℤ} (h : timeDiff time time' = .ok d) :
    d = time - time' ∧ -2^63 ≤ d := by
  unfold timeDiff at h
  split_ifs at h with hrange
  · obtain rfl := Except.ok.inj h
    exact ⟨rfl, hrange.1⟩

/-- Where the cleanup's test has a value, it is whether the chunk is published `CHUNK_EXPIRE_TIME` or
more in the future. -/
theorem expireTest_eq {now : Time} {chunk : Chunk} {b : Bool} (h : expireTest now chunk = .ok b) :
    b = decide (chunkExpireTime * 10^9 ≤ chunk.originalPublish - now) := by
  unfold expireTest at h
  cases hdiff : timeDiff chunk.originalPublish now with
  | error e =>
    rw [hdiff] at h
    exact nomatch h
  | ok d =>
    rw [hdiff] at h
    rw [← (timeDiff_eq hdiff).1]
    exact (Except.ok.inj h).symm

/-- For times less than `CHUNK_EXPIRE_TIME` apart the test is false. -/
theorem expireTest_of_lt {now : Time} {chunk : Chunk}
    (h : |now - chunk.originalPublish| < chunkExpireTime * 10^9) :
    expireTest now chunk = .ok false := by
  have hdiff : ∀ {a b : ℤ}, |a - b| < chunkExpireTime * 10^9 →
      timeDiff b a = .ok (b - a) ∧ ¬chunkExpireTime * 10^9 ≤ b - a := by
    intro a b hab
    have hday : chunkExpireTime = 86400 := rfl
    obtain ⟨hlo, hhi⟩ := abs_lt.1 hab
    exact ⟨timeDiff_of_lt (by omega) (by omega), by omega⟩
  obtain ⟨hdiff, hlt⟩ := hdiff h
  rw [expireTest, hdiff]
  exact congrArg Except.ok (decide_eq_false hlt)

/-- A cleanup pass whose tests have values removes the keys that are selected. -/
theorem cleanupChunks_run {w w' : W} {keys : List Key}
    (hselect : env.selectKeys expireTest (env.session w).chunks.entries w = ⟨[], w', .ok keys⟩) :
    (env.cleanupChunks w).result = .ok () ∧
      ∀ key, (env.session (env.cleanupChunks w).state).chunks.lookup key =
        if key ∈ keys then none else (env.session w').chunks.lookup key := by
  obtain ⟨w'', herase, hlookup⟩ := env.eraseKeys_run keys w'
  rw [Net.cleanupChunks, Net.chunksPass_ok hselect, Exec.bind_run herase]
  exact ⟨rfl, hlookup⟩

/-- A cleanup pass that returns removes the chunks that are published that far in the future. -/
theorem cleanupChunks_lookup {w : W} (hret : (env.cleanupChunks w).result = .ok ()) {i : ℕ}
    {key : Key} {chunk : Chunk} (hi : (env.session w).chunks.entries[i]? = some ⟨key, chunk⟩) :
    (env.session (env.cleanupChunks w).state).chunks.lookup key =
      if chunkExpireTime * 10^9 ≤ chunk.originalPublish - env.toNet.reading w i then none
      else some chunk := by
  rcases env.toNet.selectKeys_run expireTest (env.session w).chunks.entries w with
    ⟨n, e, hselect, -⟩ | ⟨keys, hselect, hvalue, hmem⟩
  · rw [Net.cleanupChunks, Net.chunksPass_error hselect] at hret
    exact nomatch hret
  · have hselected : key ∈ keys ↔
        chunkExpireTime * 10^9 ≤ chunk.originalPublish - env.toNet.reading w i := by
      obtain ⟨b, hb⟩ := hvalue i key chunk hi
      rw [hmem, env.selects_iff hi, hb, expireTest_eq hb, Except.ok.injEq, decide_eq_true_iff]
    rw [(env.cleanupChunks_run hselect).2, env.session_afterReadings, lookup_of_entry hi]
    exact if_congr hselected rfl rfl

/-- A cleanup pass removes exactly the expired chunks if and only if each chunk's time of
publication is less than `CHUNK_EXPIRE_TIME` away from the clock, so that none has expired. -/
theorem cleansExactly_iff (w : W) :
    env.CleansExactly w ↔
      ∀ i key chunk, (env.session w).chunks.entries[i]? = some ⟨key, chunk⟩ →
        |env.toNet.reading w i - chunk.originalPublish| < chunkExpireTime * 10^9 := by
  constructor
  · rintro ⟨hret, hentries, -⟩ i key chunk hi
    obtain ⟨hexpired, hfresh⟩ := hentries i key chunk hi
    rw [env.cleanupChunks_lookup hret hi] at hexpired hfresh
    have hage : ¬Expired (env.toNet.reading w i) chunk := by
      intro hold
      have hahead := (ite_eq_left_iff.1 (hexpired hold)).mt (Option.some_ne_none chunk)
      have hsum := add_le_add hold (not_not.1 hahead)
      rw [sub_add_sub_cancel, sub_self] at hsum
      exact absurd hsum (by decide)
    have hahead : chunk.originalPublish - env.toNet.reading w i < chunkExpireTime * 10^9 := by
      by_contra hle
      rw [if_pos (not_lt.1 hle)] at hfresh
      exact nomatch hfresh hage
    refine abs_lt.2 ⟨neg_lt.1 ?_, not_le.1 hage⟩
    rwa [neg_sub]
  · intro h
    have hselect : env.selectKeys expireTest (env.session w).chunks.entries w =
        ⟨[], env.toNet.afterReadings (env.session w).chunks.entries.length w, .ok []⟩ :=
      Net.selectKeys_of_false fun i key chunk hi => expireTest_of_lt (h i key chunk hi)
    obtain ⟨hret, hlookup⟩ := env.cleanupChunks_run hselect
    simp only [List.not_mem_nil, if_false, env.session_afterReadings] at hlookup
    refine ⟨hret, fun i key chunk hi => ⟨fun hexpired => ?_, fun _ => ?_⟩, fun key hkey => ?_⟩
    · exact absurd (abs_lt.1 (h i key chunk hi)).2 (not_lt.2 hexpired)
    · rw [hlookup, lookup_of_entry hi]
    · rw [hlookup, hkey]

/-- A session with a chunk that was published at the epoch. -/
def oldChunk : Session :=
  ⟨Router.new 0 ⟨4, [0]⟩ ⟨1, [1]⟩, AList.insert 5 ⟨true, 5, [7], 0, 0⟩ ∅, 0⟩

/-- A chunk that expired a day ago is not removed. -/
theorem not_cleansExactly :
    ¬∀ (env : Environment Session) (s : Session), env.CleansExactly s := by
  intro h
  have hremoved := (((h (deaf (2 * 86400 * 10^9)) oldChunk).2.1 0 5 ⟨true, 5, [7], 0, 0⟩ rfl).1
    (by show (86400 * 10^9 : ℤ) ≤ 2 * 86400 * 10^9 - 0; decide))
  exact absurd hremoved (by decide +kernel)

end Environment

/-! ## Republishing -/

namespace Net

variable {W α β : Type} {net : Net W}

/-- With a key to republish the pass comes to `publish`, or to nothing. -/
theorem jams_republishKeys (key : Key) (rest : List Key) (w : W) :
    Jams (net.republishKeys (key :: rest)) w := by
  refine OffChunks.jams (keeps_get _) fun found _ => ?_
  cases found with
  | none => exact jams_fault _ _
  | some chunk =>
    have hmodify : OffChunks (net.modify fun s => ((), { s with chunks := s.chunks.erase key })) :=
      Exec.steady_act fun _ _ => trivial
    exact hmodify.jams fun _ _ => (jams_publish chunk false _).bind _

end Net

namespace Environment

variable {W : Type} (env : Environment W)

/-- Whole seconds are counted as nanoseconds are. -/
theorem le_tdiv_iff {n d : ℤ} (hn : 0 < n) : n ≤ d.tdiv (10^9) ↔ n * 10^9 ≤ d := by
  norm_num
  rcases Int.le_total 0 d with hd | hd
  · rw [Int.tdiv_eq_ediv_of_nonneg hd]
    omega
  · have hle : d.tdiv 1000000000 ≤ Int.tdiv 0 1000000000 := Int.tdiv_le_tdiv (by decide) hd
    rw [Int.zero_tdiv] at hle
    omega

/-- The chunk was not published for `CHUNK_REPUBLISH_TIME` or more. -/
def Due (now : Time) (chunk : Chunk) : Prop :=
  chunkRepublishTime * 10^9 ≤ now - chunk.lastPublished

/-- Where the test of the pass has a value, it is whether the chunk is due. -/
theorem republishTest_eq {now : Time} {chunk : Chunk} {b : Bool}
    (h : republishTest now chunk = .ok b) :
    (b = true ↔ Due now chunk) ∧ -2^63 ≤ now - chunk.lastPublished := by
  unfold republishTest at h
  cases hdiff : timeDiff now chunk.lastPublished with
  | error e =>
    rw [hdiff] at h
    exact nomatch h
  | ok d =>
    rw [hdiff] at h
    obtain ⟨rfl, hlo⟩ := timeDiff_eq hdiff
    refine ⟨?_, hlo⟩
    rw [← Except.ok.inj h, decide_eq_true_iff]
    exact le_tdiv_iff (by decide)

/-- For a chunk that is not due the test is false, if the difference of the times is in range. -/
theorem republishTest_of_not_due {now : Time} {chunk : Chunk}
    (hlo : -2^63 ≤ now - chunk.lastPublished) (h : ¬Due now chunk) :
    republishTest now chunk = .ok false := by
  have hhour : chunkRepublishTime * 10^9 < (2^63 : ℤ) := by decide
  have hdiff := timeDiff_of_lt hlo ((not_le.1 h).trans hhour)
  rw [republishTest, hdiff]
  refine congrArg Except.ok (decide_eq_false fun hle => h ?_)
  exact (le_tdiv_iff (by decide)).1 hle

/-- A republish pass never tries to lock the chunks while it holds their lock, and has released it
when it ends. -/
def KeepsLock (w : W) : Prop := lockHeld .chunks false (env.republishChunks w).events = some false

/-- A republish pass is right about its lock if and only if it republishes nothing: no chunk is due
at the reading of the clock that the pass makes there, nor a difference of times out of range. -/
theorem keepsLock_iff (w : W) :
    env.KeepsLock w ↔
      ∀ i key chunk, (env.session w).chunks.entries[i]? = some ⟨key, chunk⟩ →
        ¬Due (env.toNet.reading w i) chunk ∧
          -2^63 ≤ env.toNet.reading w i - chunk.lastPublished := by
  unfold KeepsLock Net.republishChunks
  constructor
  · intro hlock i key chunk hi
    rcases env.toNet.selectKeys_run republishTest (env.session w).chunks.entries w with
      ⟨n, e, hselect, -⟩ | ⟨keys, hselect, hvalue, hmem⟩
    · rw [Net.chunksPass_error hselect] at hlock
      exact nomatch hlock
    · rw [Net.chunksPass_ok hselect] at hlock
      cases keys with
      | cons first rest =>
        -- The first key brings the thread to its own lock.
        rcases (Net.jams_republishKeys first rest _).bind fun _ => Net.unlock .chunks with
          hjams | ⟨hjams, -⟩
        · exact nomatch hjams.symm.trans hlock
        · exact nomatch hjams.symm.trans hlock
      | nil =>
        obtain ⟨b, hb⟩ := hvalue i key chunk hi
        obtain ⟨hdue, hlo⟩ := republishTest_eq hb
        refine ⟨fun h => ?_, hlo⟩
        rw [hdue.2 h] at hb
        exact absurd ((hmem key).2 ((env.selects_iff hi _ _).2 hb)) List.not_mem_nil
  · intro h
    have hselect : env.selectKeys republishTest (env.session w).chunks.entries w =
        ⟨[], env.toNet.afterReadings (env.session w).chunks.entries.length w, .ok []⟩ :=
      Net.selectKeys_of_false fun i key chunk hi =>
        republishTest_of_not_due (h i key chunk hi).2 (h i key chunk hi).1
    rw [Net.chunksPass_ok hselect]
    rfl

/-- The thread that republishes a chunk after an hour locks the chunks twice. -/
theorem not_keepsLock : ¬∀ (env : Environment Session) (s : Session), env.KeepsLock s := by
  intro h
  have hlock : lockHeld .chunks false ((deaf (3600 * 10^9)).republishChunks oldChunk).events = none := by
    decide +kernel
  exact nomatch hlock.symm.trans (h (deaf (3600 * 10^9)) oldChunk)

/-! ## The times of publication -/

/-- Every chunk is stored under its own key. -/
def Keyed (chunks : AList fun _ : Key => Chunk) : Prop :=
  ∀ key chunk, chunks.lookup key = some chunk → chunk.key = key

/-- There is no chunk to begin with. -/
theorem keyed_empty : Keyed ∅ := fun key _ h => by
  rw [AList.lookup_empty] at h
  exact nomatch h

/-- Insertions are under the chunk's key. -/
theorem Keyed.insert {chunks : AList fun _ : Key => Chunk} (h : Keyed chunks) (chunk : Chunk) :
    Keyed (chunks.insert chunk.key chunk) := by
  intro key chunk' hlookup
  by_cases hkey : key = chunk.key
  · subst hkey
    rw [AList.lookup_insert] at hlookup
    exact congrArg Chunk.key (Option.some.inj hlookup).symm
  · rw [AList.lookup_insert_ne hkey] at hlookup
    exact h key chunk' hlookup

/-- `publish` and the handlers store chunks under their own keys. -/
theorem keyed_keeps (hrpc : ∀ m endpoint request w, Keyed (env.session w).chunks →
      Keyed (env.session (env.rpc m endpoint request w).2).chunks) :
    (∀ chunk force, Net.Keeps (fun w => Keyed (env.session w).chunks) (fun _ => True)
        (env.publish chunk force)) ∧
      ∀ m request, Net.Keeps (fun w => Keyed (env.session w).chunks) (fun _ => True)
        (env.handle m request) := by
  have hframe : env.toNet.Frame fun w => Keyed (env.session w).chunks :=
    ⟨fun w _ hw => by rwa [env.session_withSession], fun w _ hw => by rwa [env.session_withSession],
      fun w hw => by rwa [env.session_now], hrpc⟩
  constructor
  · intro chunk force
    refine Net.keeps_publish hframe chunk force fun w hw => ?_
    rw [env.session_withSession]
    exact hw.insert chunk
  · intro m request
    refine Net.keeps_handle hframe m request fun w key chunk _ hkey hw => ?_
    rw [env.session_withSession, ← hkey]
    exact hw.insert chunk

/-- No RPC changes the session's chunks: a pass holds their lock, and the handlers that use them wait
for it. -/
def Guarded : Prop :=
  ∀ m endpoint request w, (env.session (env.rpc m endpoint request w).2).chunks =
    (env.session w).chunks

/-- What is said of the chunks alone is kept by what does not change them. -/
theorem frame_chunks (hguard : env.Guarded) (P : (AList fun _ : Key => Chunk) → Prop) :
    env.toNet.Frame fun w => P (env.session w).chunks where
  step w call hw := by rwa [env.session_withSession]
  deadPeers w n hw := by rwa [env.session_withSession]
  now w hw := by rwa [env.session_now]
  rpc m endpoint request w hw := by rwa [hguard]

/-- Republishing leaves every chunk as it was: it is erased, and `publish` inserts it again. -/
theorem republishKeys_lookup (hguard : env.Guarded) (keys : List Key) (w : W)
    (hkeyed : Keyed (env.session w).chunks) :
    Exec.Leads (env.republishKeys keys) w
      (fun w' _ => ∀ key, (env.session w').chunks.lookup key = (env.session w).chunks.lookup key)
      fun _ => True := by
  induction keys generalizing w with
  | nil => exact Exec.leads_pure fun _ => rfl
  | cons first rest ih =>
    refine .bind (Exec.leads_read ?_)
    cases hfound : (env.session w).chunks.lookup first with
    | none =>
      simp only [hfound]
      exact Exec.leads_fault trivial
    | some chunk =>
      simp only [hfound]
      have hkey : chunk.key = first := hkeyed first chunk hfound
      refine .bind (Exec.leads_act (.bind ?_))
      -- After `publish` the chunk is back, and then the rest of the keys follow.
      refine (Net.leads_publish (env.frame_chunks hguard fun chunks =>
          chunks = (env.session w).chunks.erase first) chunk false
        (Q := fun w' => ∀ key, (env.session w').chunks.lookup key =
          (env.session w).chunks.lookup key) (by rw [env.session_withSession]) ?_).mono ?_
      · intro w' hw' key
        rw [env.session_withSession, hw', hkey]
        by_cases hfirst : key = first
        · rw [hfirst, AList.lookup_insert, hfound]
        · rw [AList.lookup_insert_ne hfirst, AList.lookup_erase_ne hfirst]
      · intro w' _ hw'
        have hrest := ih w' fun key chunk hlookup => hkeyed key chunk (hw' key ▸ hlookup)
        exact hrest.mono fun w'' _ hw'' key => (hw'' key).trans (hw' key)

/-- A republish pass resets the clock: no chunk that it republished and that is still in the map is
due at the reading at which it was due before, so that a pass that follows leaves it. -/
def RepublishResets (w : W) : Prop :=
  ∀ i key chunk, (env.session w).chunks.entries[i]? = some ⟨key, chunk⟩ →
    Due (env.toNet.reading w i) chunk →
    ∀ chunk', (env.session (env.republishChunks w).state).chunks.lookup key = some chunk' →
      ¬Due (env.toNet.reading w i) chunk'

/-- A republish pass that returns resets the clock if and only if there was nothing to reset, as no
chunk was due. -/
theorem republishResets_iff (hguard : env.Guarded) (w : W) (hkeyed : Keyed (env.session w).chunks)
    (hret : (env.republishChunks w).result = .ok ()) :
    env.RepublishResets w ↔
      ∀ i key chunk, (env.session w).chunks.entries[i]? = some ⟨key, chunk⟩ →
        ¬Due (env.toNet.reading w i) chunk := by
  have hsame : ∀ key, (env.session (env.republishChunks w).state).chunks.lookup key =
      (env.session w).chunks.lookup key := by
    rcases env.toNet.selectKeys_run republishTest (env.session w).chunks.entries w with
      ⟨n, e, hselect, -⟩ | ⟨keys, hselect, -⟩
    · rw [Net.republishChunks, Net.chunksPass_error hselect] at hret
      exact nomatch hret
    · unfold Net.republishChunks at hret ⊢
      rw [Net.chunksPass_ok hselect] at hret ⊢
      have hkeys := env.republishKeys_lookup hguard keys
        (env.toNet.afterReadings (env.session w).chunks.entries.length w)
        (by rwa [env.session_afterReadings])
      simp only [env.session_afterReadings] at hkeys
      have htail : Exec.Leads (env.republishKeys keys >>= fun _ => Net.unlock .chunks)
          (env.toNet.afterReadings (env.session w).chunks.entries.length w)
          (fun w' _ => ∀ key, (env.session w').chunks.lookup key = (env.session w).chunks.lookup key)
          fun _ => True := .bind (hkeys.mono fun _ _ hw' => Exec.leads_emit hw')
      exact htail.1 () hret
  constructor
  · intro hresets i key chunk hi hdue
    have hafter := (hsame key).trans (lookup_of_entry hi)
    exact hresets i key chunk hi hdue chunk hafter hdue
  · exact fun hnone i key chunk hi hdue => absurd hdue (hnone i key chunk hi)

/-- A session with two chunks, that were published at the epoch and a minute later. -/
def twoChunks : Session :=
  ⟨Router.new 0 ⟨4, [0]⟩ ⟨1, [1]⟩,
    AList.insert 6 ⟨false, 6, [8], 60 * 10^9, 0⟩ (AList.insert 5 ⟨true, 5, [7], 0, 0⟩ ∅), 0⟩

/-- Half an hour later neither is due, and the pass has nothing to reset. -/
theorem republishResets_twoChunks : (deaf (1800 * 10^9)).RepublishResets twoChunks := by
  have hkeyed : Keyed twoChunks.chunks :=
    (keyed_empty.insert ⟨true, 5, [7], 0, 0⟩).insert ⟨false, 6, [8], 60 * 10^9, 0⟩
  refine (republishResets_iff (deaf (1800 * 10^9)) (fun _ _ _ _ => rfl) twoChunks hkeyed
    (by decide +kernel)).2 fun i key chunk hi => ?_
  have hnow : (deaf (1800 * 10^9)).toNet.reading twoChunks i = 1800 * 10^9 := rfl
  have hlast : (0 : ℤ) ≤ chunk.lastPublished := by
    have hmem := List.mem_of_getElem? hi
    have hall : ∀ entry ∈ twoChunks.chunks.entries, 0 ≤ entry.2.lastPublished := by decide +kernel
    exact hall _ hmem
  rw [Due, hnow]
  show ¬(3600 * 10^9 : ℤ) ≤ 1800 * 10^9 - chunk.lastPublished
  omega

/-- A chunk that was republished after an hour is due again in the next pass. -/
theorem not_republishResets :
    ¬∀ (env : Environment Session) (s : Session), env.Guarded → Keyed s.chunks →
      (env.republishChunks s).result = .ok () → env.RepublishResets s := by
  intro h
  have hkeyed : Keyed oldChunk.chunks := keyed_empty.insert ⟨true, 5, [7], 0, 0⟩
  have hdue : Due (3600 * 10^9) ⟨true, 5, [7], 0, 0⟩ := by
    show (3600 * 10^9 : ℤ) ≤ 3600 * 10^9 - 0
    decide
  exact h (deaf (3600 * 10^9)) oldChunk (fun _ _ _ _ => rfl) hkeyed (by decide +kernel) 0 5 _ rfl hdue
    ⟨true, 5, [7], 0, 0⟩ (by decide +kernel) hdue

end Environment

end Distft
