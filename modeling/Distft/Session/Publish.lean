import Distft.Session.Frame

/-!
# Who keeps a copy

`publish` offers a chunk to the peers that `node_lookup` found, and keeps it itself if they are few or
if the session belongs among them. `node_lookup` returns at most `KBUCKET_MAX` peers and `publish`
compares with `<=`, so the first half of its test always holds (`nodeLookup_length_le`): whenever it
returns, the chunk is in the local map (`leads_publish`), and the distances do not matter
(`keepsExactly_iff`).
-/

namespace Distft

namespace Net

variable {W : Type} {net : Net W} {I : W → Prop}

/-- `node_lookup` returns at most `KBUCKET_MAX` peers. -/
theorem nodeLookup_length_le (h : net.Frame I) (nodeKey : Key) :
    Exec.Yields I (net.nodeLookup nodeKey) (fun _ buffer => buffer.length ≤ kbucketMax)
      fun _ => True := by
  unfold nodeLookup
  have hlookup := keeps_lookupHelper h covers_true nodeKey [] (keeps_nodeQueryFn h covers_true nodeKey)
  refine hlookup.yields.bind fun _ r _ => (keeps_findFrom h covers_true nodeKey r.2).yields.bind
    fun _ more _ => ?_
  refine Exec.yields_pure ?_
  exact List.length_take_le _ _

/-- Where `publish` returns, its last change of the session is the insertion of the chunk. -/
theorem leads_publish (h : net.Frame I) (chunk : Chunk) (force : Bool) {w : W} (hw : I w)
    {Q : W → Prop} (hinsert : ∀ w', I w' → Q (net.withSession { net.session w' with
      chunks := (net.session w').chunks.insert chunk.key chunk } w')) :
    Exec.Leads (net.publish chunk force) w (fun w' _ => Q w') fun _ => True := by
  unfold publish
  have hlookup := nodeLookup_length_le h chunk.key
  refine .bind ⟨fun buffer hbuffer => ?_, fun _ _ => trivial⟩
  have hlen := hlookup.returns w buffer hw hbuffer
  have hw := hlookup.keeps w hw
  refine .bind ⟨fun maxDist _ => ?_, fun _ _ => trivial⟩
  have hw := (keeps_storeAll h covers_true chunk force ⟨0⟩ (buffer.take kbucketMax)).keeps _ hw
  refine .bind (Exec.leads_read ?_)
  -- The list fits, so the distances are not looked at.
  rw [if_pos (by simp [hlen])]
  exact .bind (Exec.leads_emit (.bind (Exec.leads_act (Exec.leads_emit (hinsert _ hw)))))

end Net

namespace Environment

variable {W : Type} (env : Environment W)

/-- Where `publish` returns, the chunk is in the local map. -/
theorem publish_keepsCopy (chunk : Chunk) (force : Bool) (w : W)
    (hret : (env.publish chunk force w).result = .ok ()) :
    (env.session (env.publish chunk force w).state).chunks.lookup chunk.key = some chunk :=
  (Net.leads_publish (Q := fun w' => (env.session w').chunks.lookup chunk.key = some chunk)
    env.toNet.frame_true chunk force trivial fun w' _ => by
      rw [env.session_withSession]
      exact AList.lookup_insert _).1 () hret

/-- The session belongs to the holders of a chunk: fewer than `KBUCKET_MAX` peers were found, or it is
at most as far from the chunk's key as the farthest of them. -/
def AmongHolders (selfKey chunkKey : Key) (buffer : List Peer) : Prop :=
  buffer.length < kbucketMax ∨ ∃ p ∈ buffer, chunkKey ^^^ selfKey ≤ chunkKey ^^^ p.key

/-- `publish` leaves the chunk in the local map exactly if the session belongs to the holders, with
the peers that `node_lookup` found. -/
def KeepsExactly (w : W) (chunk : Chunk) (force : Bool) : Prop :=
  ∀ buffer, (env.nodeLookup chunk.key w).result = .ok buffer →
    ((env.session (env.publish chunk force w).state).chunks.lookup chunk.key = some chunk ↔
      AmongHolders (env.session w).router.selfPeer.key chunk.key buffer)

/-- `publish` keeps a local copy exactly when the session belongs to the holders if and only if the
session does belong to them. -/
theorem keepsExactly_iff (w : W) (chunk : Chunk) (force : Bool)
    (hret : (env.publish chunk force w).result = .ok ()) :
    env.KeepsExactly w chunk force ↔
      ∀ buffer, (env.nodeLookup chunk.key w).result = .ok buffer →
        AmongHolders (env.session w).router.selfPeer.key chunk.key buffer := by
  have hkept := env.publish_keepsCopy chunk force w hret
  constructor
  · exact fun hexact buffer hbuffer => (hexact buffer hbuffer).1 hkept
  · exact fun hamong buffer hbuffer => ⟨fun _ => hamong buffer hbuffer, fun _ => hkept⟩

/-- An environment whose world is the session, in which every RPC fails and the clock shows one
time. -/
def deaf (time : Time) : Environment Session where
  session s := s
  withSession s _ := s
  now s := (time, s)
  rpc _ _ _ s := (none, s)
  turns := 2
  session_withSession _ _ := rfl
  session_now _ := rfl
  selfPeer_rpc _ _ _ _ := rfl

/-- A router that knows twenty peers, with the keys from 20 down to 1. -/
def twentyPeers (selfPeer : Peer) : Router :=
  (Router.new 0 selfPeer ⟨20, [1]⟩).run
    ((List.range 19).map fun j => .insert 0 (BitVec.ofNat keyBits (19 - j)) [1])

/-- A session that is nearer to a chunk than one of the twenty peers that were found is one of the
holders. -/
theorem keepsExactly_nearer :
    (deaf 0).KeepsExactly ⟨twentyPeers ⟨0, [0]⟩, ∅, 0⟩ ⟨true, 5, [7], 0, 0⟩ false := by
  have hnearer : ∀ buffer ∈ ((deaf 0).nodeLookup 5 ⟨twentyPeers ⟨0, [0]⟩, ∅, 0⟩).result.toOption,
      AmongHolders 0 5 buffer := by
    unfold AmongHolders
    decide +kernel
  refine (keepsExactly_iff (deaf 0) ⟨twentyPeers ⟨0, [0]⟩, ∅, 0⟩ ⟨true, 5, [7], 0, 0⟩ false
    (by decide +kernel)).2 fun buffer hbuffer => hnearer buffer ?_
  exact congrArg Except.toOption hbuffer

/-- A session that is farther from a chunk than the twenty peers that were found keeps the chunk,
too. -/
theorem not_keepsExactly :
    ¬∀ (env : Environment Session) (s : Session) (chunk : Chunk) (force : Bool),
      (env.publish chunk force s).result = .ok () → env.KeepsExactly s chunk force := by
  intro h
  let s : Session := ⟨twentyPeers ⟨BitVec.twoPow keyBits 159, [0]⟩, ∅, 0⟩
  let chunk : Chunk := ⟨true, 0, [7], 0, 0⟩
  have hret : ((deaf 0).publish chunk false s).result = .ok () := by decide +kernel
  have hbuffer : ((deaf 0).nodeLookup chunk.key s).result =
      .ok ((List.range 20).map fun j => ⟨BitVec.ofNat keyBits (j + 1), [1]⟩) := by decide +kernel
  have hamong := (h (deaf 0) s chunk false hret _ hbuffer).1
    ((deaf 0).publish_keepsCopy chunk false s hret)
  revert hamong
  unfold AmongHolders
  decide +kernel

end Environment

end Distft
