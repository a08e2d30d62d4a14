import Cadence.Persist.Impl.Writer
import Cadence.Persist.Lemmas.Round

/-!
This module contains the loop over the chunks of a batch, for any writer whose chunks are rounds on a
clean ring.
-/

open File

namespace Persist

section Chunks

variable {α : Type} {size : Nat} (hsize : 0 < size)

theorem flatten_chunks (l : List α) : (chunks size hsize l).flatten = l := by
  fun_induction chunks size hsize l with
  | case1 => rfl
  | case2 l hl ih => rw [List.flatten_cons, ih, List.take_append_drop]

theorem length_le_of_mem_chunks {l chunk : List α} (h : chunk ∈ chunks size hsize l)
    : chunk.length ≤ size := by
  fun_induction chunks size hsize l with
  | case1 => contradiction
  | case2 l hl ih =>
    rcases List.mem_cons.mp h with rfl | h
    . rw [List.length_take]
      omega
    . exact ih h

theorem ne_nil_of_mem_chunks {l chunk : List α} (h : chunk ∈ chunks size hsize l)
    : chunk ≠ [] := by
  fun_induction chunks size hsize l with
  | case1 => contradiction
  | case2 l hl ih =>
    rcases List.mem_cons.mp h with rfl | h
    . rw [Ne, List.take_eq_nil_iff]
      rintro (h | h)
      . omega
      . contradiction
    . exact ih h

end Chunks

/--
The kernel does not take just a part of the queue.
-/
def ChunkEnv.WholeSubmit (env : ChunkEnv) : Prop :=
  match env.submit with
  | .leaves _ _ => False
  | _ => True

def ChunkEnv.fails (env : ChunkEnv) (n : Nat) : Bool :=
  match env.submit with
  | .fails _ => true
  | _ => Persist.fails env.replies n

/--
The kernel takes all operations of the chunk, and if one fails then it is the last one to complete.
-/
def ChunkEnv.Tidy (env : ChunkEnv) (sqes : List Sqe) : Prop :=
  env.submit = .all ∧ ∀ ret ∈ (completions env sqes).dropLast, 0 ≤ ret

instance (env : ChunkEnv) (sqes : List Sqe) : Decidable (env.Tidy sqes) :=
  inferInstanceAs (Decidable (_ ∧ _))

/--
A writer of chunks: at offset `offset` it queues `ops offset chunk`, which write the blocks
`units chunk`. `Ready offset` says that the ring is clean and that the next chunk goes to `offset`.
-/
structure ChunkWriter (ω : Type) where
  writeChunk : ChunkEnv → ω × File → List Message → (ω × File) × Round
  ops : Nat → List Message → List Sqe
  units : List Message → List (List UInt8)
  Fits : List Message → Prop
  Ready : Nat → ω → Prop
  flatten_units : ∀ chunk, (units chunk).flatten = Message.encode chunk
  units_ne_nil : ∀ chunk, chunk ≠ [] → ∀ data ∈ units chunk, data ≠ []
  length_ops : ∀ offset chunk, (ops offset chunk).length = (units chunk).length
  round : ∀ env w file chunk offset, Ready offset w → Fits chunk → env.submit = .all →
    ∃ w',
      writeChunk env (w, file) chunk
        = ((w', file.pwriteAll (Transfer.layOut offset (transfers env.replies (units chunk)))),
            match (drain (completions env (ops offset chunk))).1 with
            | some errno => .err errno
            | none => .done)
        ∧
      ((drain (completions env (ops offset chunk))).1 = none →
        Ready (offset + 64 * chunk.length) w')
        ∧
      ((drain (completions env (ops offset chunk))).1 ≠ none →
        (drain (completions env (ops offset chunk))).2 = [] → Ready offset w')
  round_fails : ∀ env w file chunk offset errno, Ready offset w → Fits chunk →
    env.submit = .fails errno → (writeChunk env (w, file) chunk).2 = .err errno

namespace ChunkWriter

variable {ω : Type} (W : ChunkWriter ω)

def batchTransfers : List (List Message) → List ChunkEnv → List Transfer
  | [], _ => []
  | chunk :: chunks, envs =>
    transfers (envs.headD .default).replies (W.units chunk) ++ batchTransfers chunks envs.tail

def batchFails : List (List Message) → List ChunkEnv → Bool
  | [], _ => false
  | chunk :: chunks, envs =>
    (envs.headD .default).fails (W.units chunk).length || batchFails chunks envs.tail

/--
Every chunk that the batch comes to is `Tidy`. It stops at a chunk that fails.
-/
def Orderly : Nat → List (List Message) → List ChunkEnv → Prop
  | _, [], _ => True
  | offset, chunk :: chunks, envs =>
    (envs.headD .default).Tidy (W.ops offset chunk)
      ∧
    ((envs.headD .default).fails (W.units chunk).length = false →
      Orderly (offset + 64 * chunk.length) chunks envs.tail)

instance Orderly.decidable : ∀ offset chunks envs, Decidable (W.Orderly offset chunks envs)
  | _, [], _ => isTrue trivial
  | offset, chunk :: chunks, envs =>
    have := Orderly.decidable (offset + 64 * chunk.length) chunks envs.tail
    inferInstanceAs (Decidable (_ ∧ (_ → _)))

theorem payload_batchTransfers (chunks : List (List Message)) (envs : List ChunkEnv)
    : Transfer.payload (W.batchTransfers chunks envs) = Message.encode chunks.flatten := by
  fun_induction batchTransfers W chunks envs with
  | case1 => rfl
  | case2 chunk chunks envs ih =>
    rw [Transfer.payload_append, payload_transfers, W.flatten_units, ih, List.flatten_cons,
      Message.encode_append]

theorem data_ne_nil_of_mem_transfers {replies : List Reply} {units : List (List UInt8)}
    (h : ∀ data ∈ units, data ≠ []) : ∀ t ∈ transfers replies units, t.data ≠ [] := by
  fun_induction transfers replies units with
  | case1 => simp
  | case2 replies data units ih =>
    intro t ht
    rcases List.mem_cons.mp ht with rfl | ht
    . exact h data List.mem_cons_self
    . exact ih (fun data' hdata' => h data' (List.mem_cons_of_mem _ hdata')) t ht

theorem data_ne_nil_of_mem_batchTransfers {chunks : List (List Message)} (envs : List ChunkEnv)
    (h : ∀ chunk ∈ chunks, chunk ≠ []) : ∀ t ∈ W.batchTransfers chunks envs, t.data ≠ [] := by
  fun_induction batchTransfers W chunks envs with
  | case1 => simp
  | case2 chunk chunks envs ih =>
    intro t ht
    rcases List.mem_append.mp ht with ht | ht
    . apply data_ne_nil_of_mem_transfers (W.units_ne_nil chunk (h chunk List.mem_cons_self)) t ht
    . exact ih (fun chunk' hchunk' => h chunk' (List.mem_cons_of_mem _ hchunk')) t ht

section Chunk

variable {W}
variable {env : ChunkEnv} {w : ω} {chunk : List Message} {offset : Nat}

theorem wholeSubmit_headD {envs : List ChunkEnv} (h : ∀ env ∈ envs, env.WholeSubmit)
    : (envs.headD .default).WholeSubmit := by
  cases envs with
  | nil => trivial
  | cons env envs => exact h env List.mem_cons_self

theorem submit_eq_all (hwhole : env.WholeSubmit) {n : Nat} (h : env.fails n = false)
    : env.submit = .all := by
  unfold ChunkEnv.WholeSubmit at hwhole
  unfold ChunkEnv.fails at h
  split at h
  . contradiction
  . cases hsubmit : env.submit with
    | all => rfl
    | leaves n pos => simp [hsubmit] at hwhole
    | fails errno => simp_all

theorem chunk_done (file : File) (hready : W.Ready offset w) (hfits : W.Fits chunk)
    (hsubmit : env.submit = .all)
    (h : env.fails (W.units chunk).length = false)
    : ∃ w',
        W.writeChunk env (w, file) chunk
          = ((w', file.pwriteAll (Transfer.layOut offset (transfers env.replies (W.units chunk)))),
              .done)
          ∧
        W.Ready (offset + 64 * chunk.length) w' := by
  have hfails : fails env.replies (W.ops offset chunk).length = false := by
    unfold ChunkEnv.fails at h
    rw [hsubmit] at h
    rw [W.length_ops]
    exact h
  rcases W.round env w file chunk offset hready hfits hsubmit with ⟨w', hwrite, hdone, -⟩
  rw [drain_completions_of_not_fails hsubmit hfails] at hwrite hdone
  exact ⟨w', hwrite, hdone rfl⟩

theorem chunk_err (file : File) (hready : W.Ready offset w) (hfits : W.Fits chunk)
    (hsubmit : env.submit = .all)
    (h : env.fails (W.units chunk).length = true)
    : ∃ w' errno,
        W.writeChunk env (w, file) chunk
          = ((w', file.pwriteAll (Transfer.layOut offset (transfers env.replies (W.units chunk)))),
              .err errno)
          ∧
        .failed errno ∈ env.replies
          ∧
        ((∀ ret ∈ (completions env (W.ops offset chunk)).dropLast, 0 ≤ ret) →
          W.Ready offset w') := by
  have hfails : fails env.replies (W.ops offset chunk).length = true := by
    unfold ChunkEnv.fails at h
    rw [hsubmit] at h
    rw [W.length_ops]
    exact h
  rcases W.round env w file chunk offset hready hfits hsubmit with ⟨w', hwrite, -, herr⟩
  rcases drain_completions_of_fails hsubmit hfails with ⟨errno, rest, hdrain, hmem, hlast⟩
  rw [hdrain] at hwrite herr
  exact ⟨w', errno, hwrite, hmem, fun htidy => herr (by simp) (hlast htidy)⟩

end Chunk

section Batch

variable {W}
variable {chunks : List (List Message)} {envs : List ChunkEnv} {w : ω} {offset : Nat}

theorem writeChunks_done (file : File) (hready : W.Ready offset w)
    (hfits : ∀ chunk ∈ chunks, W.Fits chunk) (hwhole : ∀ env ∈ envs, env.WholeSubmit)
    (h : W.batchFails chunks envs = false) (written : Nat)
    : ∃ w',
        writeChunks W.writeChunk chunks envs written (w, file)
          = ((w', file.pwriteAll (Transfer.layOut offset (W.batchTransfers chunks envs))),
              .ok (written + chunks.flatten.length))
          ∧
        W.Ready (offset + 64 * chunks.flatten.length) w' := by
  induction chunks generalizing envs w file offset written with
  | nil => exact ⟨w, rfl, hready⟩
  | cons chunk chunks ih =>
    unfold batchFails at h
    rw [Bool.or_eq_false_iff] at h
    have hsubmit := submit_eq_all (wholeSubmit_headD hwhole) h.1
    rcases chunk_done file hready (hfits chunk List.mem_cons_self) hsubmit h.1 with
      ⟨w', hwrite, hready'⟩
    rcases ih (file.pwriteAll _) hready'
      (fun chunk' hchunk' => hfits chunk' (List.mem_cons_of_mem _ hchunk'))
      (fun env henv => hwhole env (List.mem_of_mem_tail henv)) h.2 (written + chunk.length) with
      ⟨w'', hrest, hready''⟩
    refine ⟨w'', ?_, ?_⟩
    . unfold writeChunks batchTransfers
      rw [hwrite]
      dsimp only
      rw [hrest, Transfer.layOut_append, pwriteAll_append, payload_transfers, W.flatten_units,
        Message.length_encode, List.flatten_cons, List.length_append, Nat.add_assoc]
    . rw [List.flatten_cons, List.length_append, Nat.mul_add, ← Nat.add_assoc]
      exact hready''

theorem writeChunks_of_err {chunk : List Message} {errno : Errno} {state : ω × File}
    (h : (W.writeChunk (envs.headD .default) state chunk).2 = .err errno) (written : Nat)
    : writeChunks W.writeChunk (chunk :: chunks) envs written state
        =
      ((W.writeChunk (envs.headD .default) state chunk).1, .err (.os errno)) := by
  unfold writeChunks
  generalize W.writeChunk (envs.headD .default) state chunk = result at h
  rcases result with ⟨state', result⟩
  dsimp only at h
  rw [h]

theorem writeChunks_err (file : File) (hready : W.Ready offset w)
    (hfits : ∀ chunk ∈ chunks, W.Fits chunk) (hwhole : ∀ env ∈ envs, env.WholeSubmit)
    (h : W.batchFails chunks envs = true) (written : Nat)
    : ∃ error, (writeChunks W.writeChunk chunks envs written (w, file)).2 = .err error := by
  induction chunks generalizing envs w file offset written with
  | nil => contradiction
  | cons chunk chunks ih =>
    have hfit := hfits chunk List.mem_cons_self
    have hhead := wholeSubmit_headD hwhole
    cases hsubmit : (envs.headD .default).submit with
    | leaves n pos =>
      unfold ChunkEnv.WholeSubmit at hhead
      rw [hsubmit] at hhead
      contradiction
    | fails errno =>
      -- the submission itself fails, so no operation of the chunk is taken
      have herr := W.round_fails _ w file chunk offset errno hready hfit hsubmit
      rw [writeChunks_of_err herr]
      exact ⟨_, rfl⟩
    | all =>
      cases hfails : (envs.headD .default).fails (W.units chunk).length with
      | true =>
        rcases chunk_err file hready hfit hsubmit hfails with ⟨w', errno, hwrite, -, -⟩
        rw [writeChunks_of_err (congrArg Prod.snd hwrite)]
        exact ⟨_, rfl⟩
      | false =>
        unfold batchFails at h
        rw [hfails, Bool.false_or] at h
        rcases chunk_done file hready hfit hsubmit hfails with ⟨w', hwrite, hready'⟩
        unfold writeChunks
        rw [hwrite]
        exact ih _ hready' (fun chunk' hchunk' => hfits chunk' (List.mem_cons_of_mem _ hchunk'))
          (fun env henv => hwhole env (List.mem_of_mem_tail henv)) h _

theorem writeChunks_orderly (file : File) (hready : W.Ready offset w)
    (hfits : ∀ chunk ∈ chunks, W.Fits chunk) (h : W.Orderly offset chunks envs) (written : Nat)
    : (∃ offset', W.Ready offset' (writeChunks W.writeChunk chunks envs written (w, file)).1.1)
        ∧
      ((W.batchFails chunks envs = false
          ∧
        ∃ n, (writeChunks W.writeChunk chunks envs written (w, file)).2 = .ok n)
        ∨
      ∃ errno,
        (writeChunks W.writeChunk chunks envs written (w, file)).2 = .err (.os errno)
          ∧
        ∃ env ∈ envs, .failed errno ∈ env.replies) := by
  induction chunks generalizing envs w file offset written with
  | nil => exact ⟨⟨offset, hready⟩, .inl ⟨rfl, written, rfl⟩⟩
  | cons chunk chunks ih =>
    have hfit := hfits chunk List.mem_cons_self
    unfold Orderly at h
    rcases h with ⟨⟨hsubmit, htidy⟩, hrest⟩
    cases hfails : (envs.headD .default).fails (W.units chunk).length with
    | true =>
      rcases chunk_err file hready hfit hsubmit hfails with
        ⟨w', errno, hwrite, hmem, hready'⟩
      rw [writeChunks_of_err (congrArg Prod.snd hwrite), hwrite]
      refine ⟨⟨offset, hready' htidy⟩, .inr ⟨errno, rfl, ?_⟩⟩
      cases envs with
      | nil => contradiction
      | cons env envs => exact ⟨env, List.mem_cons_self, hmem⟩
    | false =>
      rcases chunk_done file hready hfit hsubmit hfails with ⟨w', hwrite, hready'⟩
      unfold writeChunks
      rw [hwrite]
      dsimp only
      rcases ih (file.pwriteAll _) hready'
        (fun chunk' hchunk' => hfits chunk' (List.mem_cons_of_mem _ hchunk')) (hrest hfails)
        (written + chunk.length) with ⟨hclean, hresult⟩
      unfold batchFails
      rw [hfails, Bool.false_or]
      refine ⟨hclean, hresult.imp_right ?_⟩
      rintro ⟨errno, herr, env, henv, hmem⟩
      exact ⟨errno, herr, env, List.mem_of_mem_tail henv, hmem⟩

theorem writeBatch_done {size : Nat} {hsize : 0 < size} {msgs : List Message} (file : File)
    (hready : W.Ready offset w) (hfits : ∀ chunk : List Message, chunk.length ≤ size → W.Fits chunk)
    (hwhole : ∀ env ∈ envs, env.WholeSubmit)
    (h : W.batchFails (Persist.chunks size hsize msgs) envs = false)
    : ∃ w',
        writeChunks W.writeChunk (Persist.chunks size hsize msgs) envs 0 (w, file)
          = ((w', file.pwriteAll
              (Transfer.layOut offset (W.batchTransfers (Persist.chunks size hsize msgs) envs))),
              .ok msgs.length)
          ∧
        W.Ready (offset + 64 * msgs.length) w' := by
  have hall : ∀ chunk ∈ Persist.chunks size hsize msgs, W.Fits chunk :=
    fun chunk hchunk => hfits chunk (length_le_of_mem_chunks hsize hchunk)
  have hdone := writeChunks_done file hready hall hwhole h 0
  rwa [flatten_chunks, Nat.zero_add] at hdone

end Batch
end ChunkWriter
end Persist
