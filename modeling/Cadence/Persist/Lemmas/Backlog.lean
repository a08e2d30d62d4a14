import Cadence.Persist.Lemmas.CleanRing

/-!
This module contains how many operations submissions that fail can leave in the submission queue of
an io_uring writer, and that `expect("ring submission full")` does not panic before the queue is
full.
-/

open Lts

namespace Persist

/--
A submission that fails or takes just a part of the queue.
-/
def ChunkEnv.partly (env : ChunkEnv) : Bool :=
  env.submit ≠ .all

namespace Ring

variable {mem : Memory} {ring : Ring} {file : File}

theorem exec_sq (k : Nat) : (exec mem (ring, file) k).1.sq = ring.sq := by
  unfold exec
  split
  . rfl
  . rfl

theorem post_sq (k : Nat) : (ring.post k).sq = ring.sq := by
  unfold post
  split
  . rfl
  . rfl

theorem foldl_exec_sq (ks : List Nat) : (ks.foldl (exec mem) (ring, file)).1.sq = ring.sq := by
  induction ks generalizing ring file with
  | nil => rfl
  | cons k ks ih =>
    rw [List.foldl_cons]
    apply ih.trans (exec_sq k)

theorem foldl_post_sq (ks : List Nat) : (ks.foldl post ring).sq = ring.sq := by
  induction ks generalizing ring with
  | nil => rfl
  | cons k ks ih =>
    rw [List.foldl_cons, ih, post_sq]

theorem complete_sq : (complete mem (ring, file)).1.sq = ring.sq := by
  unfold complete
  dsimp only
  rw [post_sq]
  split
  . apply exec_sq
  . rfl

theorem completes_sq (n : Nat) : (completes mem n (ring, file)).1.sq = ring.sq := by
  induction n generalizing ring file with
  | zero => rfl
  | succ n ih =>
    apply ih.trans complete_sq

theorem length_sq_release : ring.release.sq.length = ring.sq.length := by
  apply List.length_map

/--
A submission that takes everything leaves nothing, and any other leaves at most what it has found.
-/
theorem length_sq_submitAndWait (want : Nat) (env : ChunkEnv)
    : (submitAndWait mem want env (ring, file)).1.1.sq.length
        ≤
      if env.partly then ring.sq.length else 0 := by
  have hposts (taken : Nat) : (env.posts.foldl post
      (env.execs.foldl (exec mem) (ring.take taken env.replies, file)).1).sq.length
        = ring.sq.length - taken := by
    rw [foldl_post_sq, foldl_exec_sq]
    apply List.length_drop
  unfold submitAndWait ChunkEnv.partly
  cases env.submit with
  | fails errno =>
    dsimp only
    rw [hposts]
    simp
  | all =>
    dsimp only
    split
    . unfold wait
      rw [completes_sq, hposts]
      omega
    . rw [hposts]
      omega
  | leaves n pos =>
    dsimp only
    split
    . unfold wait
      rw [completes_sq, hposts]
      simp
    . rw [hposts]
      simp

theorem round_of_room {entries : Nat} {sqes : List Sqe} (h : ring.sq.length + sqes.length ≤ entries)
    (want : Nat) (env : ChunkEnv)
    : (round entries mem sqes want env (ring, file)).2 ≠ .panicked
        ∧
      (round entries mem sqes want env (ring, file)).1.1.sq.length
        ≤ ring.sq.length + if env.partly then sqes.length else 0 := by
  have hlength := @length_sq_submitAndWait mem { ring with sq := ring.sq ++ sqes } file want env
  unfold round
  rw [pushAll_eq h]
  dsimp only at hlength ⊢
  rw [List.length_append] at hlength
  generalize submitAndWait mem want env ({ ring with sq := ring.sq ++ sqes }, file) = result at hlength
  have hle : result.1.1.sq.length ≤ ring.sq.length + if env.partly then sqes.length else 0 := by
    split at hlength
    next hpartly =>
      rw [if_pos hpartly]
      apply hlength
    next hpartly => omega
  rcases result with ⟨⟨ring', file'⟩, _ | errno⟩
  . dsimp only
    split
    . refine ⟨by simp, ?_⟩
      rw [length_sq_release]
      apply hle
    . refine ⟨by simp, ?_⟩
      rw [length_sq_release]
      apply hle
  . refine ⟨by simp, ?_⟩
    rw [length_sq_release]
    apply hle

end Ring

def partlyCount (envs : List ChunkEnv) : Nat :=
  envs.countP ChunkEnv.partly

theorem partlyCount_headD_add (envs : List ChunkEnv) (ops : Nat)
    : (if (envs.headD .default).partly then ops else 0) + partlyCount envs.tail * ops
        =
      partlyCount envs * ops := by
  cases envs with
  | nil => simp [partlyCount, ChunkEnv.partly, ChunkEnv.default]
  | cons env envs =>
    unfold partlyCount
    rw [List.headD_cons, List.tail_cons, List.countP_cons, Nat.add_mul, Nat.add_comm]
    split
    . rw [Nat.one_mul]
    . rw [Nat.zero_mul]

section Room

variable {ω : Type} {writeChunk : ChunkEnv → ω × File → List Message → (ω × File) × Round}
variable {valid : ω → Prop} {queued : ω → Nat} {ops entries : Nat}

/--
A chunk of at most `ops` operations does not panic if there is room for them, and leaves them in the
queue at most.
-/
def NeedsRoom (writeChunk : ChunkEnv → ω × File → List Message → (ω × File) × Round)
    (valid : ω → Prop) (queued : ω → Nat) (ops entries : Nat) (chunk : List Message) : Prop :=
  ∀ env w file, valid w → queued w + ops ≤ entries →
    (writeChunk env (w, file) chunk).2 ≠ .panicked
      ∧
    valid (writeChunk env (w, file) chunk).1.1
      ∧
    queued (writeChunk env (w, file) chunk).1.1 ≤ queued w + if env.partly then ops else 0

theorem writeChunks_of_room {chunks : List (List Message)}
    (hchunks : ∀ chunk ∈ chunks, NeedsRoom writeChunk valid queued ops entries chunk)
    {envs : List ChunkEnv} {w : ω} (hvalid : valid w)
    (hroom : queued w + (partlyCount envs + 1) * ops ≤ entries) (written : Nat) (file : File)
    : (writeChunks writeChunk chunks envs written (w, file)).2 ≠ .panicked
        ∧
      valid (writeChunks writeChunk chunks envs written (w, file)).1.1
        ∧
      queued (writeChunks writeChunk chunks envs written (w, file)).1.1
        ≤ queued w + partlyCount envs * ops := by
  induction chunks generalizing envs w written file with
  | nil => exact ⟨by simp [writeChunks], hvalid, Nat.le_add_right _ _⟩
  | cons chunk chunks ih =>
    rw [List.forall_mem_cons] at hchunks
    have hcount := partlyCount_headD_add envs ops
    rw [Nat.add_mul, Nat.one_mul] at hroom
    have hchunk := hchunks.1 (envs.headD .default) w file hvalid (by omega)
    unfold writeChunks
    generalize writeChunk (envs.headD .default) (w, file) chunk = result at hchunk
    rcases result with ⟨⟨w', file'⟩, _ | errno | _⟩
    . dsimp only at hchunk ⊢
      rcases hchunk with ⟨-, hvalid', hqueued⟩
      have hroom' : queued w' + (partlyCount envs.tail + 1) * ops ≤ entries := by
        rw [Nat.add_mul, Nat.one_mul]
        omega
      rcases ih hchunks.2 hvalid' hroom' (written + chunk.length) file' with ⟨hrest, hvalid'', hqueued'⟩
      exact ⟨hrest, hvalid'', by omega⟩
    . dsimp only at hchunk ⊢
      exact ⟨by simp, hchunk.2.1, by omega⟩
    . exact absurd rfl hchunk.1

end Room

theorem UringWriter.needsRoom {ringDepth entries ops : Nat} {chunk : List Message}
    (hops : chunk.length ≤ ops)
    : NeedsRoom writeChunk (fun w => w.ringDepth = ringDepth ∧ w.entries = entries)
        (fun w => w.ring.sq.length) ops entries chunk := by
  rintro env w file ⟨hdepth, rfl⟩ hroom
  have hroom : w.ring.sq.length + ops ≤ w.entries := hroom
  have hlength : (sqes w.offset chunk).length = chunk.length := by
    apply List.length_mapIdx
  have hround := @Ring.round_of_room ⟨[], env.freed⟩ w.ring file w.entries (sqes w.offset chunk)
    (by omega) chunk.length env
  rw [hlength] at hround
  have hle : (if env.partly then chunk.length else 0) ≤ if env.partly then ops else 0 := by
    split
    . exact hops
    . apply Nat.le_refl
  unfold writeChunk
  dsimp only
  generalize Ring.round _ _ _ _ _ _ = result at hround
  rcases result with ⟨⟨ring, file'⟩, _ | errno | _⟩
  . exact ⟨by simp, ⟨hdepth, rfl⟩, Nat.le_trans hround.2 (by omega)⟩
  . exact ⟨by simp, ⟨hdepth, rfl⟩, Nat.le_trans hround.2 (by omega)⟩
  . exact absurd rfl hround.1

theorem UringFixedWriter.needsRoom {capMsgs : Nat} {chunk : List Message}
    (hfits : chunk.length ≤ capMsgs)
    : NeedsRoom writeChunk (fun w => w.capMsgs = capMsgs) (fun w => w.ring.sq.length) 1 8 chunk := by
  rintro env w file rfl hroom
  have hlength : chunk.length * 64 ≤ w.buf.length := by
    rw [w.buf_length]
    omega
  have hround := @Ring.round_of_room ⟨pack w.buf chunk, env.freed⟩ w.ring file 8
    [⟨w.offset, len chunk, .registered⟩] hroom 1 env
  unfold writeChunk
  dsimp only
  rw [dif_pos hlength]
  generalize Ring.round _ _ _ _ _ _ = result at hround
  rcases result with ⟨⟨ring, file'⟩, _ | errno | _⟩
  . exact ⟨by simp, rfl, hround.2⟩
  . exact ⟨by simp, rfl, hround.2⟩
  . exact absurd rfl hround.1

theorem UringWriter.writeBatch_of_room {w : UringWriter} {ops entries : Nat} {msgs : List Message}
    (hentries : w.entries = entries) (hops : min msgs.length w.ringDepth ≤ ops)
    {envs : List ChunkEnv} (hroom : w.ring.sq.length + (partlyCount envs + 1) * ops ≤ entries)
    (file : File)
    : (w.writeBatch file msgs envs).2 ≠ .panicked
        ∧
      ((w.writeBatch file msgs envs).1.1.ringDepth = w.ringDepth
        ∧ (w.writeBatch file msgs envs).1.1.entries = entries)
        ∧
      (w.writeBatch file msgs envs).1.1.ring.sq.length
        ≤ w.ring.sq.length + partlyCount envs * ops := by
  refine writeChunks_of_room (fun chunk hchunk => needsRoom ?_) ⟨rfl, hentries⟩ hroom 0 file
  have hlength : chunk.length ≤ msgs.length := by
    have hsublist := List.sublist_flatten_of_mem hchunk
    rw [flatten_chunks] at hsublist
    apply hsublist.length_le
  exact Nat.le_trans (Nat.le_min.mpr ⟨hlength, length_le_of_mem_chunks w.depth_pos hchunk⟩) hops

theorem UringFixedWriter.writeBatch_of_room {w : UringFixedWriter} {envs : List ChunkEnv}
    (hroom : w.ring.sq.length + (partlyCount envs + 1) * 1 ≤ 8) (file : File) (msgs : List Message)
    : (w.writeBatch file msgs envs).2 ≠ .panicked
        ∧
      (w.writeBatch file msgs envs).1.1.ring.sq.length
        ≤ w.ring.sq.length + partlyCount envs * 1 := by
  have hchunks := writeChunks_of_room
    (fun chunk (hchunk : chunk ∈ chunks w.capMsgs w.cap_pos msgs) =>
      needsRoom (length_le_of_mem_chunks w.cap_pos hchunk))
    rfl hroom 0 file
  exact ⟨hchunks.1, hchunks.2.2⟩

/--
The submissions of a history of calls that the kernel has not taken in full.
-/
def partlyIn (past : List (Call × Outcome)) : Nat :=
  (past.map fun entry => partlyCount entry.1.2.chunks).sum

theorem partlyIn_append_singleton (past : List (Call × Outcome)) (entry : Call × Outcome)
    : partlyIn (past ++ [entry]) = partlyIn past + partlyCount entry.1.2.chunks := by
  unfold partlyIn
  rw [List.map_append, List.sum_append, List.map_singleton, List.sum_singleton]

theorem log_not_panicked {kind : Kind} {ops entries : Nat} {valid : Writer → Prop}
    {queued : Writer → Nat} {file : File} {calls : List Call} {state : Writer × File}
    {past : List (Call × Outcome)} (hinit : valid (.create kind) ∧ queued (.create kind) = 0)
    (hcalls : ∀ call ∈ calls, ∀ w file, valid w →
      queued w + (partlyCount call.2.chunks + 1) * ops ≤ entries →
        (Writer.writeBatch (w, file) call.1 call.2).2 ≠ .panicked
          ∧
        valid (Writer.writeBatch (w, file) call.1 call.2).1.1
          ∧
        queued (Writer.writeBatch (w, file) call.1 call.2).1.1
          ≤ queued w + partlyCount call.2.chunks * ops)
    (hreach : (log kind file).Reaches calls state past) (hfew : (partlyIn past + 1) * ops ≤ entries)
    : ∀ entry ∈ past, entry.2 ≠ .panicked := by
  have hinv := System.reaches_inv_of_meets (C := fun _ call => call ∈ calls)
    (fun s past => (partlyIn past + 1) * ops ≤ entries →
      (valid s.1 ∧ queued s.1 ≤ partlyIn past * ops) ∧ ∀ entry ∈ past, entry.2 ≠ .panicked)
    ?_ ?_ (System.meets_of_forall (fun _ _ h => h) _) hreach
  . exact (hinv hfew).2
  . rintro ⟨w, file⟩ past call s' es h hcall hstep hfew
    rcases log_step hstep with ⟨rfl, rfl⟩
    rw [partlyIn_append_singleton, Nat.add_mul, Nat.add_mul, Nat.one_mul] at hfew
    rcases h (by rw [Nat.add_mul, Nat.one_mul]; omega) with ⟨⟨hvalid, hqueued⟩, hpast⟩
    dsimp only at hvalid hqueued hfew
    rcases hcalls call hcall w file hvalid (by rw [Nat.add_mul, Nat.one_mul]; omega)
      with ⟨hnot, hvalid', hqueued'⟩
    rw [partlyIn_append_singleton, Nat.add_mul, List.forall_mem_append, List.forall_mem_singleton]
    refine ⟨⟨hvalid', ?_⟩, hpast, hnot⟩
    dsimp only
    omega
  . intro _
    exact ⟨⟨hinit.1, Nat.le_trans (Nat.le_of_eq hinit.2) (Nat.zero_le _)⟩, fun _ h => by contradiction⟩

/--
A `UringWriter` does not panic as long as there is room for one more chunk beside those that earlier
submissions may have left behind, whatever becomes of the operations. If the kernel always takes the
whole queue then there is.
-/
theorem uring_not_panicked {ringDepth ops : Nat} {hpos : 0 < ringDepth} {file : File}
    {calls : List Call} {state : Writer × File} {past : List (Call × Outcome)}
    (hops : ∀ call ∈ calls, min call.1.length ringDepth ≤ ops)
    (hreach : (log (.uring ringDepth hpos) file).Reaches calls state past)
    (hfew : (partlyIn past + 1) * ops ≤ 2 ^ Nat.clog 2 ringDepth)
    : ∀ entry ∈ past, entry.2 ≠ .panicked := by
  refine @log_not_panicked _ ops _
    (fun w => ∃ u, w = .uring u ∧ u.ringDepth = ringDepth ∧ u.entries = 2 ^ Nat.clog 2 ringDepth)
    (fun w => w.ring.elim 0 fun ring => ring.sq.length) _ _ _ _ ⟨⟨_, rfl, rfl, rfl⟩, rfl⟩ ?_ hreach hfew
  rintro call hcall _ file ⟨u, rfl, rfl, hentries⟩ hroom
  rcases UringWriter.writeBatch_of_room hentries (hops call hcall) hroom file with
    ⟨hnot, hvalid, hqueued⟩
  exact ⟨hnot, ⟨_, rfl, hvalid⟩, hqueued⟩

/--
A `UringFixedWriter` does not panic as long as at most seven submissions have not been taken in full:
there is one operation of each left behind, and the queue has eight entries.
-/
theorem fixed_not_panicked {capMsgs : Nat} {hpos : 0 < capMsgs} {hle : capMsgs * 64 ≤ 2 ^ 30}
    {file : File} {calls : List Call} {state : Writer × File} {past : List (Call × Outcome)}
    (hreach : (log (.fixed capMsgs hpos hle) file).Reaches calls state past)
    (hfew : partlyIn past ≤ 7)
    : ∀ entry ∈ past, entry.2 ≠ .panicked := by
  refine @log_not_panicked _ 1 8 (fun w => ∃ u, w = .fixed u)
    (fun w => w.ring.elim 0 fun ring => ring.sq.length) _ _ _ _ ⟨⟨_, rfl⟩, rfl⟩ ?_ hreach (by omega)
  rintro call hcall _ file ⟨u, rfl⟩ hroom
  rcases UringFixedWriter.writeBatch_of_room hroom file call.1 with ⟨hnot, hqueued⟩
  exact ⟨hnot, ⟨_, rfl⟩, hqueued⟩

/--
One message is sent `n` times, and no submission takes anything.
-/
def refused (n : Nat) : List Call :=
  List.replicate n ([.new "a" []], ⟨[], [⟨.fails ⟨11, by decide⟩, [], [], [], []⟩]⟩)

theorem uring_not_panicked_three
    : ∃ state past,
        (log (.uring 4 (by decide)) []).Reaches (refused 3 ++ [([.new "a" []], ⟨[], []⟩)]) state past
          ∧
        ∀ entry ∈ past, entry.2 ≠ .panicked := by
  have hreach := (log (.uring 4 (by decide)) []).reaches_get
    (refused 3 ++ [([.new "a" []], ⟨[], []⟩)]) (by decide +kernel)
  have hops : ∀ call ∈ refused 3 ++ [([.new "a" []], ⟨[], []⟩)], min call.1.length 4 ≤ 1 := by
    simp [refused]
  exact ⟨_, _, hreach, uring_not_panicked hops hreach (by decide +kernel)⟩

theorem fixed_not_panicked_seven
    : ∃ state past,
        (log (.fixed 1 (by decide) (by decide)) []).Reaches
            (refused 7 ++ [([.new "a" []], ⟨[], []⟩)]) state past
          ∧
        ∀ entry ∈ past, entry.2 ≠ .panicked := by
  have hreach := (log (.fixed 1 (by decide) (by decide)) []).reaches_get
    (refused 7 ++ [([.new "a" []], ⟨[], []⟩)]) (by decide +kernel)
  exact ⟨_, _, hreach, fixed_not_panicked hreach (by decide +kernel)⟩

/--
The ninth call finds the queue full.
-/
example
    : ((log (.fixed 1 (by decide) (by decide)) []).run (.create (.fixed 1 (by decide) (by decide)), [])
        (refused 9)).map (fun run => (run.2.map Prod.snd).getLast?) = some (some .panicked) := by
  decide +kernel

end Persist
