import Cadence.Persist.Lemmas.History

/-!
This module contains the ring of an io_uring writer between two calls of `write_batch`.
-/

open Lts

namespace Persist

/--
The result of a call comes from its own operations.
-/
def Own (kind : Kind) (entry : Call × Outcome) : Prop :=
  match entry.2 with
  | .ok _ => kind.fails entry.1 = false
  | .err (.os errno) => ∃ chunk ∈ entry.1.2.chunks, .failed errno ∈ chunk.replies
  | .err .writeZero => False
  | .panicked => False

variable {kind : Kind} {file : File} {calls : List Call} {state : Writer × File}
variable {past : List (Call × Outcome)}

theorem Kind.writeBatch_orderly {offset : Nat} {w : Writer} {call : Call} (file : File)
    (hkind : kind.isStd = false) (hready : kind.Ready offset w) (h : kind.Orderly w.offset call)
    : (∃ offset', kind.Ready offset' (Writer.writeBatch (w, file) call.1 call.2).1.1)
        ∧
      Own kind (call, (Writer.writeBatch (w, file) call.1 call.2).2) := by
  rcases exists_chunked hkind with ⟨ω, ⟨chunked⟩⟩
  rcases chunked.exists_of_ready offset w hready with ⟨v, rfl, hv⟩
  rw [(chunked.ready_clean offset v hv).1, chunked.orderly_eq] at h
  have hfits : ∀ chunk ∈ chunks chunked.size chunked.size_pos call.1, chunked.W.Fits chunk :=
    fun chunk hchunk => chunked.fits chunk (length_le_of_mem_chunks chunked.size_pos hchunk)
  rcases ChunkWriter.writeChunks_orderly file hv hfits h 0 with
    ⟨⟨offset', hclean⟩, hresult⟩
  rcases chunked.writeBatch_eq offset v file call hv with ⟨result, heq, hbatch⟩
  rw [heq] at hclean hresult
  rw [hbatch]
  refine ⟨⟨offset', chunked.ready_embed _ _ hclean⟩, ?_⟩
  rw [← chunked.fails_eq] at hresult
  unfold Own
  rcases hresult with ⟨hfails, n, hok⟩ | ⟨errno, herr, henv⟩
  . dsimp only
    rw [hok]
    exact hfails
  . dsimp only
    rw [herr]
    exact henv

/--
The ring is clean whenever a call returns, and every result comes from the operations of its own
call, in every run in which the kernel takes the operations of every chunk and if one fails then it
is the last one to complete.
-/
theorem log_clean_of_orderly (hkind : kind.isStd = false)
    (hmeets : (log kind file).Meets (fun state call => kind.Orderly state.1.offset call)
      (log kind file).init calls)
    (hreach : (log kind file).Reaches calls state past)
    : state.1.ring = some .new ∧ ∀ entry ∈ past, Own kind entry := by
  rcases exists_chunked hkind with ⟨ω, ⟨chunked⟩⟩
  have hinv := System.reaches_inv_of_meets (fun state past =>
    (∃ offset, kind.Ready offset state.1) ∧ ∀ entry ∈ past, Own kind entry) ?_
    ⟨⟨0, kind.ready_create⟩, fun _ h => by contradiction⟩ hmeets hreach
  . rcases hinv with ⟨⟨offset, hready⟩, hown⟩
    rcases chunked.exists_of_ready offset _ hready with ⟨v, hv, hready'⟩
    refine ⟨?_, hown⟩
    rw [hv]
    exact (chunked.ready_clean offset v hready').2
  . rintro s past call s' es ⟨⟨offset, hready⟩, hown⟩ horderly hstep
    rcases log_step hstep with ⟨rfl, rfl⟩
    rcases Kind.writeBatch_orderly s.2 hkind hready horderly with ⟨hready', hown'⟩
    refine ⟨hready', ?_⟩
    intro entry hentry
    rcases List.mem_append.mp hentry with hentry | hentry
    . exact hown entry hentry
    . rw [List.mem_singleton.mp hentry]
      exact hown'

def noSpace : Errno :=
  ⟨28, by decide⟩

theorem log_clean_of_orderly_noSpace
    : ∃ state past,
        (log (.fixed 2 (by decide) (by decide)) []).Reaches
            [([.new "a" []], ⟨[], [⟨.all, [.failed noSpace], [], [], []⟩]⟩),
              ([.new "b" []], ⟨[], []⟩)] state past
          ∧
        past.map Prod.snd = [.err (.os noSpace), .ok 1]
          ∧
        state.1.ring = some .new := by
  have hreach := (log (.fixed 2 (by decide) (by decide)) []).reaches_get
    [([.new "a" []], ⟨[], [⟨.all, [.failed noSpace], [], [], []⟩]⟩), ([.new "b" []], ⟨[], []⟩)]
    (by decide +kernel)
  exact ⟨_, _, hreach, by decide +kernel, (log_clean_of_orderly rfl (by decide +kernel) hreach).1⟩

/--
Both operations of a call fail. It returns at the first completion and leaves the other one unread.
-/
theorem log_not_clean
    : ¬ ∀ (kind : Kind) (file : File) (calls : List Call) (state : Writer × File)
        (past : List (Call × Outcome)), kind.isStd = false →
        (log kind file).Reaches calls state past →
        state.1.ring = some .new ∧ ∀ entry ∈ past, Own kind entry := by
  intro h
  have hreach := (log (.uring 2 (by decide)) []).reaches_get
    [([.new "a" [], .new "b" []], ⟨[], [⟨.all, [.failed noSpace, .failed noSpace], [], [], []⟩]⟩)]
    (by decide +kernel)
  have hclean := (h _ _ _ _ _ rfl hreach).1
  revert hclean
  decide +kernel

end Persist
