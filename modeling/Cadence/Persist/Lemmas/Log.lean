import Cadence.Persist.Lemmas.Std
import Cadence.Persist.Lemmas.Uring

/-!
This module contains the batches of the three writers, and the log of a writer after any number of
batches that returned `Ok`.
-/

open Lts File

namespace Persist

def ChunkEnv.NoFailure (env : ChunkEnv) : Prop :=
  env.submit = .all ∧ ∀ reply ∈ env.replies, reply.isFailed = false

namespace Env

def WholeSubmits (env : Env) : Prop :=
  ∀ chunk ∈ env.chunks, chunk.WholeSubmit

def NoFailure (env : Env) : Prop :=
  Smooth env.writes ∧ ∀ chunk ∈ env.chunks, chunk.NoFailure

theorem NoFailure.wholeSubmits {env : Env} (h : env.NoFailure) : env.WholeSubmits := by
  intro chunk hchunk
  unfold ChunkEnv.WholeSubmit
  rw [(h.2 chunk hchunk).1]
  trivial

end Env

def Writer.offset : Writer → Nat
  | .std _ => 0
  | .uring w => w.offset
  | .fixed w => w.offset

def Writer.ring : Writer → Option Ring
  | .std _ => none
  | .uring w => some w.ring
  | .fixed w => some w.ring

namespace Kind

def transfers (kind : Kind) (call : Call) : List Transfer :=
  match kind with
  | .std _ => []
  | .uring ringDepth h =>
    (uringChunks ringDepth).batchTransfers (chunks ringDepth h call.1) call.2.chunks
  | .fixed capMsgs hpos _ =>
    (fixedChunks capMsgs).batchTransfers (chunks capMsgs hpos call.1) call.2.chunks

def fails (kind : Kind) (call : Call) : Bool :=
  match kind with
  | .std _ => false
  | .uring ringDepth h =>
    (uringChunks ringDepth).batchFails (chunks ringDepth h call.1) call.2.chunks
  | .fixed capMsgs hpos _ =>
    (fixedChunks capMsgs).batchFails (chunks capMsgs hpos call.1) call.2.chunks

def Full (kind : Kind) (call : Call) : Prop :=
  call.2.NoFailure ∧ ∀ t ∈ kind.transfers call, t.data.length ≤ t.count

def Orderly (kind : Kind) (offset : Nat) (call : Call) : Prop :=
  match kind with
  | .std _ => True
  | .uring ringDepth h =>
    (uringChunks ringDepth).Orderly offset (chunks ringDepth h call.1) call.2.chunks
  | .fixed capMsgs hpos _ =>
    (fixedChunks capMsgs).Orderly offset (chunks capMsgs hpos call.1) call.2.chunks

instance (kind : Kind) (offset : Nat) (call : Call) : Decidable (kind.Orderly offset call) :=
  match kind with
  | .std _ => isTrue trivial
  | .uring _ _ => ChunkWriter.Orderly.decidable _ _ _ _
  | .fixed _ _ _ => ChunkWriter.Orderly.decidable _ _ _ _

def isStd : Kind → Bool
  | .std _ => true
  | _ => false

def Ready (kind : Kind) (offset : Nat) (w : Writer) : Prop :=
  match kind, w with
  | .std _, .std w => w.buf = []
  | .uring ringDepth _, .uring w => (uringChunks ringDepth).Ready offset w
  | .fixed capMsgs _ _, .fixed w => (fixedChunks capMsgs).Ready offset w
  | _, _ => False

theorem ready_create (kind : Kind) : kind.Ready 0 (.create kind) := by
  cases kind with
  | std bufCap => rfl
  | uring ringDepth h => exact ⟨rfl, rfl, rfl⟩
  | fixed capMsgs hpos hle => exact ⟨rfl, rfl, rfl⟩

end Kind

/--
The writers of `kind` are the values of `ω`, and they write the chunks of `W`.
-/
structure Chunked (kind : Kind) (ω : Type) where
  W : ChunkWriter ω
  size : Nat
  size_pos : 0 < size
  embed : ω → Writer
  fits : ∀ chunk : List Message, chunk.length ≤ size → W.Fits chunk
  exists_of_ready : ∀ offset w, kind.Ready offset w → ∃ v, w = embed v ∧ W.Ready offset v
  ready_embed : ∀ offset v, W.Ready offset v → kind.Ready offset (embed v)
  ready_clean : ∀ offset v, W.Ready offset v →
    (embed v).offset = offset ∧ (embed v).ring = some .new
  transfers_eq : ∀ call : Call,
    kind.transfers call = W.batchTransfers (chunks size size_pos call.1) call.2.chunks
  fails_eq : ∀ call : Call,
    kind.fails call = W.batchFails (chunks size size_pos call.1) call.2.chunks
  orderly_eq : ∀ offset (call : Call),
    kind.Orderly offset call = W.Orderly offset (chunks size size_pos call.1) call.2.chunks
  writeBatch_eq : ∀ offset v file (call : Call), W.Ready offset v →
    ∃ result,
      writeChunks W.writeChunk (chunks size size_pos call.1) call.2.chunks 0 (v, file) = result
        ∧
      Writer.writeBatch (embed v, file) call.1 call.2
        = ((embed result.1.1, result.1.2), result.2)

theorem exists_chunked {kind : Kind} (hkind : kind.isStd = false)
    : ∃ ω, Nonempty (Chunked kind ω) := by
  cases kind with
  | std bufCap => contradiction
  | uring ringDepth h =>
    refine ⟨UringWriter, ⟨{
      W := uringChunks ringDepth
      size := ringDepth
      size_pos := h
      embed := .uring
      fits := fun _ h => h
      exists_of_ready := ?_
      ready_embed := fun _ _ h => h
      ready_clean := fun _ _ h => ⟨h.2.1, congrArg some h.1⟩
      transfers_eq := fun _ => rfl
      fails_eq := fun _ => rfl
      orderly_eq := fun _ _ => rfl
      writeBatch_eq := ?_
    }⟩⟩
    . intro offset w hready
      cases w with
      | uring w => exact ⟨w, rfl, hready⟩
      | std w => contradiction
      | fixed w => contradiction
    . rintro offset w file call ⟨hring, hoffset, rfl⟩
      exact ⟨_, rfl, rfl⟩
  | fixed capMsgs hpos hle =>
    refine ⟨UringFixedWriter, ⟨{
      W := fixedChunks capMsgs
      size := capMsgs
      size_pos := hpos
      embed := .fixed
      fits := fun _ h => h
      exists_of_ready := ?_
      ready_embed := fun _ _ h => h
      ready_clean := fun _ _ h => ⟨h.2.1, congrArg some h.1⟩
      transfers_eq := fun _ => rfl
      fails_eq := fun _ => rfl
      orderly_eq := fun _ _ => rfl
      writeBatch_eq := ?_
    }⟩⟩
    . intro offset w hready
      cases w with
      | fixed w => exact ⟨w, rfl, hready⟩
      | std w => contradiction
      | uring w => contradiction
    . rintro offset w file call ⟨hring, hoffset, rfl⟩
      exact ⟨_, rfl, rfl⟩

namespace Kind

variable {kind : Kind} {offset : Nat} {w : Writer} {call : Call}

theorem payload_transfers (hkind : kind.isStd = false) (call : Call)
    : Transfer.payload (kind.transfers call) = Message.encode call.1 := by
  rcases exists_chunked hkind with ⟨ω, ⟨chunked⟩⟩
  rw [chunked.transfers_eq, ChunkWriter.payload_batchTransfers, flatten_chunks]

theorem payload_flatMap_transfers (hkind : kind.isStd = false) (calls : List Call)
    : Transfer.payload (calls.flatMap kind.transfers)
        =
      Message.encode (calls.flatMap Prod.fst) := by
  induction calls with
  | nil => rfl
  | cons call calls ih =>
    rw [List.flatMap_cons, Transfer.payload_append, payload_transfers hkind, ih, List.flatMap_cons,
      Message.encode_append]

theorem data_ne_nil_of_mem_transfers : ∀ t ∈ kind.transfers call, t.data ≠ [] := by
  cases hkind : kind.isStd with
  | true =>
    cases kind with
    | std bufCap => simp [transfers]
    | uring ringDepth h => contradiction
    | fixed capMsgs hpos hle => contradiction
  | false =>
    rcases exists_chunked hkind with ⟨ω, ⟨chunked⟩⟩
    rw [chunked.transfers_eq]
    apply ChunkWriter.data_ne_nil_of_mem_batchTransfers
    intro chunk hchunk
    apply ne_nil_of_mem_chunks chunked.size_pos hchunk

theorem transfers_eq_nil {calls : List Call} (hkind : kind.isStd = false)
    (h : calls.flatMap Prod.fst = []) : calls.flatMap kind.transfers = [] := by
  have hpayload := payload_flatMap_transfers hkind calls
  rw [h] at hpayload
  apply List.eq_nil_iff_forall_not_mem.mpr
  intro t ht
  rcases List.mem_flatMap.mp ht with ⟨call, -, hmem⟩
  apply data_ne_nil_of_mem_transfers t hmem
  apply List.flatMap_eq_nil_iff.mp hpayload t ht

theorem writeBatch_std {n : Nat} (file : File) (hkind : kind.isStd = true)
    (hready : kind.Ready offset w) (hok : (Writer.writeBatch (w, file) call.1 call.2).2 = .ok n)
    : n = call.1.length
        ∧
      (Writer.writeBatch (w, file) call.1 call.2).1.2 = file ++ Message.encode call.1
        ∧
      ∀ offset', kind.Ready offset' (Writer.writeBatch (w, file) call.1 call.2).1.1 := by
  cases kind with
  | std bufCap =>
    cases w with
    | std w =>
      have hbuf : w.buf = [] := hready
      rcases StdWriter.writeBatch_ok hok with ⟨hn, hbuf', hfile⟩
      rw [hbuf, List.append_nil] at hfile
      exact ⟨hn, hfile, fun _ => hbuf'⟩
    | uring w => contradiction
    | fixed w => contradiction
  | uring ringDepth h => contradiction
  | fixed capMsgs hpos hle => contradiction

theorem writeBatch_uring (file : File) (hkind : kind.isStd = false) (hready : kind.Ready offset w)
    (hwhole : call.2.WholeSubmits) (hfails : kind.fails call = false)
    : ∃ w',
        Writer.writeBatch (w, file) call.1 call.2
          = ((w', file.pwriteAll (Transfer.layOut offset (kind.transfers call))),
              .ok call.1.length)
          ∧
        kind.Ready (offset + 64 * call.1.length) w' := by
  rcases exists_chunked hkind with ⟨ω, ⟨chunked⟩⟩
  rcases chunked.exists_of_ready offset w hready with ⟨v, rfl, hv⟩
  rw [chunked.fails_eq] at hfails
  rcases ChunkWriter.writeBatch_done file hv chunked.fits hwhole hfails with
    ⟨v', hwrite, hv'⟩
  rcases chunked.writeBatch_eq offset v file call hv with ⟨result, hresult, hbatch⟩
  rw [hwrite] at hresult
  rw [hbatch, ← hresult, chunked.transfers_eq]
  exact ⟨_, rfl, chunked.ready_embed _ _ hv'⟩

theorem writeBatch_fails (file : File) (hready : kind.Ready offset w)
    (hwhole : call.2.WholeSubmits) (hfails : kind.fails call = true)
    : ∃ error, (Writer.writeBatch (w, file) call.1 call.2).2 = .err error := by
  have hkind : kind.isStd = false := by
    cases kind with
    | std bufCap => contradiction
    | uring ringDepth h => rfl
    | fixed capMsgs hpos hle => rfl
  rcases exists_chunked hkind with ⟨ω, ⟨chunked⟩⟩
  rcases chunked.exists_of_ready offset w hready with ⟨v, rfl, hv⟩
  rw [chunked.fails_eq] at hfails
  have hfits : ∀ chunk ∈ chunks chunked.size chunked.size_pos call.1, chunked.W.Fits chunk :=
    fun chunk hchunk => chunked.fits chunk (length_le_of_mem_chunks chunked.size_pos hchunk)
  rcases ChunkWriter.writeChunks_err file hv hfits hwhole hfails 0 with ⟨error, herr⟩
  rcases chunked.writeBatch_eq offset v file call hv with ⟨result, hresult, hbatch⟩
  rw [hresult] at herr
  rw [hbatch, herr]
  exact ⟨error, rfl⟩

def wrote (kind : Kind) (offset : Nat) (file : File) (calls : List Call) : File :=
  if kind.isStd then
    file ++ Message.encode (calls.flatMap Prod.fst)
  else
    file.pwriteAll (Transfer.layOut offset (calls.flatMap kind.transfers))

theorem wrote_append (offset : Nat) (file : File) (calls : List Call) (call : Call)
    : kind.wrote offset file (calls ++ [call])
        =
      kind.wrote (offset + 64 * (calls.flatMap Prod.fst).length) (kind.wrote offset file calls)
        [call] := by
  unfold wrote
  split
  . rw [List.flatMap_append, Message.encode_append, List.append_assoc]
  . next hkind =>
    rw [List.flatMap_append, Transfer.layOut_append, pwriteAll_append,
      payload_flatMap_transfers (by simpa using hkind), Message.length_encode]

theorem writeBatch_ok {n : Nat} (file : File) (hready : kind.Ready offset w)
    (hwhole : call.2.WholeSubmits)
    (hok : (Writer.writeBatch (w, file) call.1 call.2).2 = .ok n)
    : n = call.1.length
        ∧
      (Writer.writeBatch (w, file) call.1 call.2).1.2 = kind.wrote offset file [call]
        ∧
      kind.Ready (offset + 64 * call.1.length) (Writer.writeBatch (w, file) call.1 call.2).1.1 := by
  unfold wrote
  rw [List.flatMap_singleton, List.flatMap_singleton]
  cases hkind : kind.isStd with
  | true =>
    rcases writeBatch_std file hkind hready hok with ⟨hn, hfile, hready'⟩
    exact ⟨hn, hfile, hready' _⟩
  | false =>
    cases hfails : kind.fails call with
    | true =>
      rcases writeBatch_fails file hready hwhole hfails with ⟨error, herr⟩
      rw [herr] at hok
      contradiction
    | false =>
      rcases writeBatch_uring file hkind hready hwhole hfails with ⟨w', hbatch, hready'⟩
      rw [hbatch] at hok ⊢
      refine ⟨?_, rfl, hready'⟩
      simpa using hok.symm

end Kind

theorem writeChunks_ok {ω : Type}
    {writeChunk : ChunkEnv → ω × File → List Message → (ω × File) × Round}
    {chunks : List (List Message)} {envs : List ChunkEnv} {written n : Nat} {state : ω × File}
    (h : (writeChunks writeChunk chunks envs written state).2 = .ok n)
    : n = written + chunks.flatten.length := by
  induction chunks generalizing envs written state with
  | nil => simpa [writeChunks] using h.symm
  | cons chunk chunks ih =>
    unfold writeChunks at h
    split at h
    . rw [ih h, List.flatten_cons, List.length_append, Nat.add_assoc]
    . contradiction
    . contradiction

/--
`write_batch` returns the number of messages that it has got, whatever the operating system does.
-/
theorem Writer.length_of_ok {state state' : Writer × File} {msgs : List Message} {env : Env} {n : Nat}
    (h : Writer.writeBatch state msgs env = (state', .ok n)) : n = msgs.length := by
  have hok := congrArg Prod.snd h
  rcases state with ⟨w, file⟩
  cases w with
  | std w => exact (StdWriter.writeBatch_ok hok).1
  | uring w =>
    have hlength := writeChunks_ok (show (w.writeBatch file msgs env.chunks).2 = .ok n from hok)
    rw [hlength, flatten_chunks, Nat.zero_add]
  | fixed w =>
    have hlength := writeChunks_ok (show (w.writeBatch file msgs env.chunks).2 = .ok n from hok)
    rw [hlength, flatten_chunks, Nat.zero_add]

end Persist
