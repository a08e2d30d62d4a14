import Cadence.Persist.Lemmas.CleanRing
import Cadence.Persist.Lemmas.Records

/-!
This module contains what a log holds when batches that failed are repeated: the records that the
failed attempts have left behind, and then those of the attempt that succeeds.
-/

open Lts File

namespace Persist

def ChunkEnv.FullUnlessFailed (env : ChunkEnv) (units : List (List UInt8)) : Prop :=
  ∀ p ∈ env.replies.zip units, p.1.isFailed = true ∨ p.2.length ≤ p.1.count

instance (env : ChunkEnv) (units : List (List UInt8)) : Decidable (env.FullUnlessFailed units) :=
  inferInstanceAs (Decidable (∀ p ∈ _, _))

theorem full_of_mem_transfers {replies : List Reply} {units : List (List UInt8)}
    (h : ∀ p ∈ replies.zip units, p.1.isFailed = true ∨ p.2.length ≤ p.1.count)
    (hfails : fails replies units.length = false)
    : ∀ t ∈ transfers replies units, t.data.length ≤ t.count := by
  fun_induction transfers replies units with
  | case1 => simp
  | case2 replies data units ih =>
    cases replies with
    | nil =>
      intro t ht
      rcases List.mem_cons.mp ht with rfl | ht
      . apply Nat.le_refl
      . apply ih _ _ t ht
        . simp
        . simp [fails]
    | cons reply replies =>
      unfold fails at hfails
      rw [List.length_cons, List.take_succ_cons, List.any_cons, Bool.or_eq_false_iff] at hfails
      intro t ht
      rcases List.mem_cons.mp ht with rfl | ht
      . have hhead := h (reply, data) (by simp)
        rw [hfails.1] at hhead
        exact hhead.resolve_left (by simp)
      . apply ih _ hfails.2 t ht
        intro p hp
        exact h p (List.mem_cons_of_mem _ hp)

namespace ChunkWriter

variable {ω : Type} (W : ChunkWriter ω)

/--
The messages of the chunks before the first one that fails.
-/
def kept : List (List Message) → List ChunkEnv → List Message
  | [], _ => []
  | chunk :: chunks, envs =>
    if (envs.headD .default).fails (W.units chunk).length then
      []
    else
      chunk ++ kept chunks envs.tail

/--
Whether the first chunk of a batch fails.
-/
def failsFirst : List (List Message) → List ChunkEnv → Bool
  | [], _ => false
  | chunk :: _, envs => (envs.headD .default).fails (W.units chunk).length

def FullUnlessFailed : List (List Message) → List ChunkEnv → Prop
  | [], _ => True
  | chunk :: chunks, envs =>
    (envs.headD .default).FullUnlessFailed (W.units chunk)
      ∧
    ((envs.headD .default).fails (W.units chunk).length = false →
      FullUnlessFailed chunks envs.tail)

instance FullUnlessFailed.decidable : ∀ chunks envs, Decidable (W.FullUnlessFailed chunks envs)
  | [], _ => isTrue trivial
  | _ :: chunks, envs =>
    have := FullUnlessFailed.decidable chunks envs.tail
    inferInstanceAs (Decidable (_ ∧ (_ → _)))

theorem kept_prefix (chunks : List (List Message)) (envs : List ChunkEnv)
    : W.kept chunks envs <+: chunks.flatten := by
  fun_induction kept W chunks envs with
  | case1 => apply List.prefix_refl
  | case2 => apply List.nil_prefix
  | case3 chunk chunks envs hfails ih =>
    rw [List.flatten_cons]
    exact (List.prefix_append_right_inj chunk).mpr ih

theorem kept_eq_nil_iff {size : Nat} (hsize : 0 < size) {msgs : List Message} (hmsgs : msgs ≠ [])
    (envs : List ChunkEnv)
    : W.kept (Persist.chunks size hsize msgs) envs = []
        ↔
      W.failsFirst (Persist.chunks size hsize msgs) envs = true := by
  have hchunk : msgs.take size ≠ [] :=
    ne_nil_of_mem_chunks hsize (by rw [chunks_of_ne_nil hsize hmsgs]; exact List.mem_cons_self)
  rw [chunks_of_ne_nil hsize hmsgs]
  unfold kept failsFirst
  split
  . next hfails => exact ⟨fun _ => hfails, fun _ => rfl⟩
  . next hfails =>
    rw [List.append_eq_nil_iff]
    exact ⟨fun h => absurd h.1 hchunk, fun h => absurd h hfails⟩

theorem pwriteAll_failed (log junk : List UInt8) (replies : List Reply) (chunk : List Message)
    : ∃ junk',
        pwriteAll (log ++ junk) (Transfer.layOut log.length (transfers replies (W.units chunk)))
          = log ++ junk'
          ∧
        junk'.length ≤ max junk.length (64 * chunk.length) := by
  refine ⟨_, Transfer.pwriteAll_layOut_append_left log junk 0 _, ?_⟩
  have hlength := Transfer.length_pwriteAll_layOut_le junk 0 (transfers replies (W.units chunk))
  rw [payload_transfers, W.flatten_units, Message.length_encode] at hlength
  omega

theorem pwriteAll_full (log junk : List UInt8) {env : ChunkEnv} {chunk : List Message}
    (hfull : env.FullUnlessFailed (W.units chunk)) (hsubmit : env.submit = .all)
    (hfails : env.fails (W.units chunk).length = false)
    : pwriteAll (log ++ junk) (Transfer.layOut log.length (transfers env.replies (W.units chunk)))
        = log ++ Message.encode chunk ++ junk.drop (64 * chunk.length) := by
  have hnone : fails env.replies (W.units chunk).length = false := by
    unfold ChunkEnv.fails at hfails
    rw [hsubmit] at hfails
    exact hfails
  refine (Transfer.pwriteAll_layOut_append_left log junk 0 _).trans ?_
  rw [Transfer.pwriteAll_layOut_of_full junk 0 (full_of_mem_transfers hfull hnone),
    payload_transfers, W.flatten_units, pwrite_zero, Message.length_encode, List.append_assoc]

variable {W}
variable {chunks : List (List Message)} {envs : List ChunkEnv} {w : ω} {log : List UInt8}

/--
A batch behind `log` keeps the chunks before the first one that fails. What the failing chunk and
those of earlier batches have left behind the end of the log is `junk`.
-/
theorem writeChunks_kept (junk : List UInt8) (hready : W.Ready log.length w)
    (hfits : ∀ chunk ∈ chunks, W.Fits chunk) (horderly : W.Orderly log.length chunks envs)
    (hfull : W.FullUnlessFailed chunks envs) (written : Nat)
    : ∃ w' junk' outcome,
        writeChunks W.writeChunk chunks envs written (w, log ++ junk)
          = ((w', log ++ Message.encode (W.kept chunks envs) ++ junk'), outcome)
          ∧
        W.Ready (log.length + 64 * (W.kept chunks envs).length) w'
          ∧
        ((outcome = .ok (written + chunks.flatten.length)
            ∧
          W.kept chunks envs = chunks.flatten
            ∧
          junk' = junk.drop (64 * chunks.flatten.length))
          ∨
        (∃ error, outcome = .err error)
          ∧
        junk'.length ≤ max junk.length (64 * chunks.flatten.length)) := by
  induction chunks generalizing envs w log junk written with
  | nil =>
    refine ⟨w, junk, .ok written, ?_, hready, .inl ⟨rfl, rfl, rfl⟩⟩
    rw [kept, Message.encode_nil, List.append_nil]
    rfl
  | cons chunk chunks ih =>
    have hfit := hfits chunk List.mem_cons_self
    unfold Orderly at horderly
    unfold FullUnlessFailed at hfull
    rcases horderly with ⟨⟨hsubmit, htidy⟩, horderly⟩
    unfold kept
    cases hfails : (envs.headD .default).fails (W.units chunk).length with
    | true =>
      rcases chunk_err (log ++ junk) hready hfit hsubmit hfails with
        ⟨w', errno, hwrite, -, hready'⟩
      -- the offset stays at the end of `log`, and the next chunk will overwrite what this one left
      rcases W.pwriteAll_failed log junk (envs.headD .default).replies chunk with
        ⟨junk', hfile, hlength⟩
      rw [writeChunks_of_err (congrArg Prod.snd hwrite), hwrite, hfile, if_pos rfl,
        Message.encode_nil, List.append_nil]
      refine ⟨w', junk', _, rfl, hready' htidy, .inr ⟨⟨_, rfl⟩, ?_⟩⟩
      rw [List.flatten_cons, List.length_append]
      omega
    | false =>
      rcases chunk_done (log ++ junk) hready hfit hsubmit hfails with ⟨w', hwrite, hready'⟩
      have hfile := W.pwriteAll_full log junk hfull.1 hsubmit hfails
      have hlog : log.length + 64 * chunk.length = (log ++ Message.encode chunk).length := by
        rw [List.length_append, Message.length_encode]
      rw [hlog] at hready'
      have horderly' := horderly hfails
      rw [hlog] at horderly'
      -- the other chunks of the batch are behind the longer log, and overwrite some of the junk
      rcases ih (junk.drop (64 * chunk.length)) hready'
        (fun chunk' hchunk' => hfits chunk' (List.mem_cons_of_mem _ hchunk'))
        horderly' (hfull.2 hfails) (written + chunk.length) with
        ⟨w'', junk', outcome, hrest, hready'', hresult⟩
      rw [if_neg (by simp)]
      refine ⟨w'', junk', outcome, ?_, ?_, ?_⟩
      . unfold writeChunks
        rw [hwrite]
        dsimp only
        rw [hfile, hrest, Message.encode_append, List.append_assoc log]
      . rw [List.length_append, Nat.mul_add, ← Nat.add_assoc, hlog]
        exact hready''
      . rw [List.flatten_cons, List.length_append, Nat.mul_add]
        rcases hresult with ⟨hok, hkept, hjunk⟩ | ⟨herr, hjunk⟩
        . refine .inl ⟨?_, by rw [hkept], ?_⟩
          . rw [hok, Nat.add_assoc]
          . rw [hjunk, List.drop_drop]
        . refine .inr ⟨herr, ?_⟩
          rw [List.length_drop] at hjunk
          omega

theorem writeBatch_kept {size : Nat} {hsize : 0 < size} {msgs : List Message}
    (junk : List UInt8) (hready : W.Ready log.length w)
    (hfits : ∀ chunk : List Message, chunk.length ≤ size → W.Fits chunk)
    (horderly : W.Orderly log.length (Persist.chunks size hsize msgs) envs)
    (hfull : W.FullUnlessFailed (Persist.chunks size hsize msgs) envs)
    : ∃ w' junk' outcome,
        writeChunks W.writeChunk (Persist.chunks size hsize msgs) envs 0 (w, log ++ junk)
          = ((w', log ++ Message.encode (W.kept (Persist.chunks size hsize msgs) envs) ++ junk'),
              outcome)
          ∧
        W.Ready (log.length + 64 * (W.kept (Persist.chunks size hsize msgs) envs).length) w'
          ∧
        W.kept (Persist.chunks size hsize msgs) envs <+: msgs
          ∧
        ((outcome = .ok msgs.length
            ∧
          W.kept (Persist.chunks size hsize msgs) envs = msgs
            ∧
          junk' = junk.drop (64 * msgs.length))
          ∨
        (∃ error, outcome = .err error)
          ∧
        junk'.length ≤ max junk.length (64 * msgs.length)) := by
  have hall : ∀ chunk ∈ Persist.chunks size hsize msgs, W.Fits chunk :=
    fun chunk hchunk => hfits chunk (length_le_of_mem_chunks hsize hchunk)
  have hkept := W.kept_prefix (Persist.chunks size hsize msgs) envs
  rw [flatten_chunks] at hkept
  rcases writeChunks_kept junk hready hall horderly hfull 0 with
    ⟨w', junk', outcome, hwrite, hready', hresult⟩
  rw [flatten_chunks, Nat.zero_add] at hresult
  exact ⟨w', junk', outcome, hwrite, hready', hkept, hresult⟩

end ChunkWriter

namespace Kind

def kept (kind : Kind) (call : Call) : List Message :=
  match kind with
  | .std _ => []
  | .uring ringDepth h => (uringChunks ringDepth).kept (chunks ringDepth h call.1) call.2.chunks
  | .fixed capMsgs hpos _ => (fixedChunks capMsgs).kept (chunks capMsgs hpos call.1) call.2.chunks

def failsFirst (kind : Kind) (call : Call) : Bool :=
  match kind with
  | .std _ => false
  | .uring ringDepth h => (uringChunks ringDepth).failsFirst (chunks ringDepth h call.1) call.2.chunks
  | .fixed capMsgs hpos _ =>
    (fixedChunks capMsgs).failsFirst (chunks capMsgs hpos call.1) call.2.chunks

/--
What a failing call leaves in the log: the messages that a `StdWriter` has put into its buffer, and
of an io_uring writer the chunks before the one that failed.
-/
def leaves (kind : Kind) (state : Writer × File) (call : Call) : List Message :=
  match state.1 with
  | .std w => w.appended state.2 call.1 call.2.writes
  | .uring _ | .fixed _ => kind.kept call

def FullUnlessFailed (kind : Kind) (call : Call) : Prop :=
  match kind with
  | .std _ => True
  | .uring ringDepth h =>
    (uringChunks ringDepth).FullUnlessFailed (chunks ringDepth h call.1) call.2.chunks
  | .fixed capMsgs hpos _ =>
    (fixedChunks capMsgs).FullUnlessFailed (chunks capMsgs hpos call.1) call.2.chunks

instance (kind : Kind) (call : Call) : Decidable (kind.FullUnlessFailed call) :=
  match kind with
  | .std _ => isTrue trivial
  | .uring _ _ => ChunkWriter.FullUnlessFailed.decidable _ _ _
  | .fixed _ _ _ => ChunkWriter.FullUnlessFailed.decidable _ _ _

/--
No transfer is short, and a failing call leaves nothing in the ring.
-/
def Retryable (kind : Kind) (state : Writer × File) (call : Call) : Prop :=
  kind.Orderly state.1.offset call ∧ kind.FullUnlessFailed call

instance (kind : Kind) (state : Writer × File) (call : Call) : Decidable (kind.Retryable state call) :=
  inferInstanceAs (Decidable (_ ∧ _))

/--
A record is shorter than the buffer of a `StdWriter`, as it is with `stdBufCap`.
-/
def BuffersRecords : Kind → Prop
  | .std bufCap => 64 < bufCap
  | _ => True

/--
The next batch is going to be written behind `log`. At most `debt` bytes of failed operations are
there already.
-/
def Holds (kind : Kind) (log : List UInt8) (debt : Nat) (state : Writer × File) : Prop :=
  match kind with
  | .std bufCap => ∃ w, state.1 = .std w ∧ w.capacity = bufCap ∧ state.2 ++ w.buf = log
  | kind => kind.Ready log.length state.1 ∧ ∃ junk, state.2 = log ++ junk ∧ junk.length ≤ debt

variable {kind : Kind} {log : List UInt8} {debt : Nat} {state : Writer × File} {call : Call}

theorem holds_create (kind : Kind) : kind.Holds [] 0 (.create kind, []) := by
  cases kind with
  | std bufCap => exact ⟨.create bufCap, rfl, rfl, rfl⟩
  | uring ringDepth h => exact ⟨ready_create _, [], rfl, Nat.le_refl 0⟩
  | fixed capMsgs hpos hle => exact ⟨ready_create _, [], rfl, Nat.le_refl 0⟩

theorem Holds.mono (h : kind.Holds log debt state) {debt' : Nat} (hle : debt ≤ debt')
    : kind.Holds log debt' state := by
  cases kind with
  | std bufCap => exact h
  | uring ringDepth h' =>
    rcases h with ⟨hready, junk, hfile, hjunk⟩
    exact ⟨hready, junk, hfile, hjunk.trans hle⟩
  | fixed capMsgs hpos hle' =>
    rcases h with ⟨hready, junk, hfile, hjunk⟩
    exact ⟨hready, junk, hfile, hjunk.trans hle⟩

theorem writeBatch_kept (hkind : kind.isStd = false) {w : Writer} (junk : List UInt8)
    (hready : kind.Ready log.length w) (hretryable : kind.Retryable (w, log ++ junk) call)
    : ∃ w' junk' outcome,
        Writer.writeBatch (w, log ++ junk) call.1 call.2
          = ((w', log ++ Message.encode (kind.kept call) ++ junk'), outcome)
          ∧
        kind.Ready (log.length + 64 * (kind.kept call).length) w'
          ∧
        kind.kept call <+: call.1
          ∧
        ((outcome = .ok call.1.length
            ∧
          kind.kept call = call.1
            ∧
          junk' = junk.drop (64 * call.1.length))
          ∨
        (∃ error, outcome = .err error)
          ∧
        junk'.length ≤ max junk.length (64 * call.1.length)) := by
  rcases hretryable with ⟨horderly, hfull⟩
  cases kind with
  | std bufCap => contradiction
  | uring ringDepth h =>
    cases w with
    | uring w =>
      rcases hready with ⟨hring, hoffset, rfl⟩
      have horderly' : (uringChunks w.ringDepth).Orderly log.length (chunks w.ringDepth h call.1)
          call.2.chunks := hoffset ▸ horderly
      rcases ChunkWriter.writeBatch_kept (W := uringChunks w.ringDepth) junk
        ⟨hring, hoffset, rfl⟩ (fun _ h => h) horderly' hfull with
        ⟨w', junk', outcome, hwrite, hready', hresult⟩
      have hbatch : w.writeBatch (log ++ junk) call.1 call.2.chunks = _ := hwrite
      refine ⟨.uring w', junk', outcome, ?_, hready', hresult⟩
      unfold Writer.writeBatch
      dsimp only
      rw [hbatch]
      rfl
    | std w => contradiction
    | fixed w => contradiction
  | fixed capMsgs hpos hle =>
    cases w with
    | fixed w =>
      rcases hready with ⟨hring, hoffset, rfl⟩
      have horderly' : (fixedChunks w.capMsgs).Orderly log.length (chunks w.capMsgs hpos call.1)
          call.2.chunks := hoffset ▸ horderly
      rcases ChunkWriter.writeBatch_kept (W := fixedChunks w.capMsgs) junk
        ⟨hring, hoffset, rfl⟩ (fun _ h => h) horderly' hfull with
        ⟨w', junk', outcome, hwrite, hready', hresult⟩
      have hbatch : w.writeBatch (log ++ junk) call.1 call.2.chunks = _ := hwrite
      refine ⟨.fixed w', junk', outcome, ?_, hready', hresult⟩
      unfold Writer.writeBatch
      dsimp only
      rw [hbatch]
      rfl
    | std w => contradiction
    | uring w => contradiction

theorem Holds.ready (h : kind.Holds log debt state) (hkind : kind.isStd = false)
    : kind.Ready log.length state.1 ∧ ∃ junk, state.2 = log ++ junk ∧ junk.length ≤ debt := by
  cases kind with
  | std bufCap => contradiction
  | uring ringDepth h' => exact h
  | fixed capMsgs hpos hle => exact h

theorem holds_of_ready (hkind : kind.isStd = false) (hready : kind.Ready log.length state.1)
    {junk : List UInt8} (hfile : state.2 = log ++ junk) (hjunk : junk.length ≤ debt)
    : kind.Holds log debt state := by
  cases kind with
  | std bufCap => contradiction
  | uring ringDepth h' => exact ⟨hready, junk, hfile, hjunk⟩
  | fixed capMsgs hpos hle => exact ⟨hready, junk, hfile, hjunk⟩

theorem Ready.leaves {offset : Nat} {w : Writer} (h : kind.Ready offset w) (hkind : kind.isStd = false)
    (file : File) (call : Call) : kind.leaves (w, file) call = kind.kept call := by
  cases kind with
  | std bufCap => contradiction
  | uring ringDepth h' =>
    cases w with
    | uring w => rfl
    | std w => contradiction
    | fixed w => contradiction
  | fixed capMsgs hpos hle =>
    cases w with
    | fixed w => rfl
    | std w => contradiction
    | uring w => contradiction

theorem Ready.writeBatch_nil {offset : Nat} {w : Writer} (h : kind.Ready offset w)
    (hkind : kind.isStd = false) (file : File) (env : Env)
    : (Writer.writeBatch (w, file) [] env).2 = .ok 0 := by
  cases w with
  | std w =>
    cases kind with
    | std bufCap => contradiction
    | uring ringDepth h' => contradiction
    | fixed capMsgs hpos hle => contradiction
  | uring w =>
    have hbatch : (w.writeBatch file [] env.chunks).2 = .ok 0 := by
      unfold UringWriter.writeBatch
      rw [chunks_nil]
      rfl
    exact hbatch
  | fixed w =>
    have hbatch : (w.writeBatch file [] env.chunks).2 = .ok 0 := by
      unfold UringFixedWriter.writeBatch
      rw [chunks_nil]
      rfl
    exact hbatch

theorem kept_eq_nil_iff (hkind : kind.isStd = false) (hmsgs : call.1 ≠ [])
    : kind.kept call = [] ↔ kind.failsFirst call = true := by
  cases kind with
  | std bufCap => contradiction
  | uring ringDepth h => exact ChunkWriter.kept_eq_nil_iff _ h hmsgs _
  | fixed capMsgs hpos hle => exact ChunkWriter.kept_eq_nil_iff _ hpos hmsgs _

/--
What a failed attempt, from `state`, leaves in the log.
-/
structure Failed (kind : Kind) (log : List UInt8) (debt : Nat) (state : Writer × File) (call : Call)
    : Prop where
  first : kind.leaves state call <+: call.1
  std : kind.isStd = true → state.2 = log → kind.leaves state call ≠ []
  uring : kind.isStd = false → kind.leaves state call = kind.kept call ∧ call.1 ≠ []
  holds : kind.Holds (log ++ Message.encode (kind.leaves state call)) (max debt (64 * call.1.length))
    (Writer.writeBatch state call.1 call.2).1

theorem Holds.err (h : kind.Holds log debt state) (hbuffers : kind.BuffersRecords)
    (hretryable : kind.Retryable state call) {error : IoError}
    (herr : (Writer.writeBatch state call.1 call.2).2 = .err error)
    : Failed kind log debt state call := by
  rcases state with ⟨w, file⟩
  cases hkind : kind.isStd with
  | true =>
    cases kind with
    | std bufCap =>
      rcases h with ⟨v, rfl, hcapacity, hbytes⟩
      rcases StdWriter.writeBatch_err (hcapacity ▸ hbuffers) herr with ⟨hfile, hne⟩
      rw [hbytes] at hfile
      exact {
        first := v.appended_prefix file call.1 call.2.writes
        std := by
          intro _ hlog
          apply hne
          dsimp only at hbytes hlog
          rw [hlog] at hbytes
          exact List.append_right_eq_self.mp hbytes
        uring := fun h => by contradiction
        -- what the buffer still holds is part of the log, and the next batch will write it
        holds := ⟨_, rfl, (v.writeBatch_capacity file _ _).trans hcapacity, hfile⟩
      }
    | uring ringDepth h' => contradiction
    | fixed capMsgs hpos hle => contradiction
  | false =>
    rcases h.ready hkind with ⟨hready, junk, hfile, hjunk⟩
    dsimp only at hready hfile
    subst hfile
    have hleaves := hready.leaves hkind (log ++ junk) call
    rcases writeBatch_kept hkind junk hready hretryable with
      ⟨w', junk', outcome, hwrite, hready', hkept, hresult⟩
    have hmsgs : call.1 ≠ [] := by
      intro hnil
      rw [hnil, hready.writeBatch_nil hkind] at herr
      contradiction
    have herr' := herr
    rw [hwrite] at herr'
    rcases hresult with ⟨hok, -, -⟩ | ⟨-, hjunk'⟩
    . rw [hok] at herr'
      contradiction
    . exact {
        first := hleaves ▸ hkept
        std := by
          intro hstd
          rw [hkind] at hstd
          contradiction
        uring := fun _ => ⟨hleaves, hmsgs⟩
        holds := by
          rw [hleaves, hwrite]
          refine holds_of_ready hkind ?_ rfl (by omega)
          rw [List.length_append, Message.length_encode]
          exact hready'
      }

theorem Holds.ok (h : kind.Holds log debt state) (hretryable : kind.Retryable state call) {n : Nat}
    (hok : (Writer.writeBatch state call.1 call.2).2 = .ok n)
    : n = call.1.length
        ∧
      kind.Holds (log ++ Message.encode call.1) (debt - 64 * call.1.length)
        (Writer.writeBatch state call.1 call.2).1
        ∧
      (debt ≤ 64 * call.1.length →
        (Writer.writeBatch state call.1 call.2).1.2 = log ++ Message.encode call.1) := by
  rcases state with ⟨w, file⟩
  cases hkind : kind.isStd with
  | true =>
    cases kind with
    | std bufCap =>
      rcases h with ⟨v, rfl, hcapacity, hbytes⟩
      rcases StdWriter.writeBatch_ok hok with ⟨hn, hbuf, hfile⟩
      rw [hbytes] at hfile
      have hbytes' := congrArg₂ (· ++ ·) hfile hbuf
      rw [List.append_nil] at hbytes'
      exact ⟨hn, ⟨_, rfl, (v.writeBatch_capacity file _ _).trans hcapacity, hbytes'⟩, fun _ => hfile⟩
    | uring ringDepth h' => contradiction
    | fixed capMsgs hpos hle => contradiction
  | false =>
    rcases h.ready hkind with ⟨hready, junk, hfile, hjunk⟩
    dsimp only at hready hfile
    subst hfile
    rcases writeBatch_kept hkind junk hready hretryable with
      ⟨w', junk', outcome, hwrite, hready', -, hresult⟩
    rw [hwrite] at hok ⊢
    dsimp only at hok
    rcases hresult with ⟨hok', hkept, hjunk'⟩ | ⟨⟨error, herr⟩, -⟩
    . rw [hkept] at hready' ⊢
      have hlength : junk'.length = junk.length - 64 * call.1.length := by
        rw [hjunk', List.length_drop]
      refine ⟨?_, holds_of_ready hkind ?_ rfl (by omega), ?_⟩
      . rw [hok', Outcome.ok.injEq] at hok
        exact hok.symm
      . rw [List.length_append, Message.length_encode]
        exact hready'
      . intro hle
        have hnil : junk' = [] := List.length_eq_zero_iff.mp (by omega)
        rw [hnil, List.append_nil]
    . rw [herr] at hok
      contradiction

end Kind

variable {kind : Kind} {log : List UInt8} {state state' : Writer × File} {msgs : List Message}

/--
What failing calls of `write_batch` with `msgs` under `envs` leave in the log, one after the other.
-/
def leftovers (kind : Kind) (msgs : List Message) (state : Writer × File) (envs : List Env)
    : List (List Message) :=
  (Persist.log kind []).trace (fun state call => [kind.leaves state call]) state
    (envs.map fun env => (msgs, env))

/--
Attempts at `msgs` under `envs` have failed, from `state` with the log `log` to `state'`.
-/
structure Attempts (kind : Kind) (log : List UInt8) (msgs : List Message) (envs : List Env)
    (state state' : Writer × File) : Prop where
  first : List.Forall₂ (fun _ left => left <+: msgs) envs (leftovers kind msgs state envs)
  std : kind.isStd = true → state.2 = log → ∀ left ∈ (leftovers kind msgs state envs).head?, left ≠ []
  uring : kind.isStd = false →
    leftovers kind msgs state envs = envs.map fun env => kind.kept (msgs, env)
  ne_nil : kind.isStd = false → envs ≠ [] → msgs ≠ []
  holds : kind.Holds (log ++ Message.encode (leftovers kind msgs state envs).flatten)
    (64 * msgs.length) state'

theorem run_failed {envs : List Env} {failed : List (Call × Outcome)}
    (hholds : kind.Holds log (64 * msgs.length) state) (hbuffers : kind.BuffersRecords)
    (hmeets : (Persist.log kind []).Meets kind.Retryable state (envs.map fun env => (msgs, env)))
    (hrun : (Persist.log kind []).run state (envs.map fun env => (msgs, env)) = some (state', failed))
    (hfailed : ∀ entry ∈ failed, ∃ error, entry.2 = .err error)
    : Attempts kind log msgs envs state state' := by
  induction envs generalizing state log failed with
  | nil =>
    simp only [List.map_nil, System.run_nil, Option.some.injEq, Prod.mk.injEq] at hrun
    rcases hrun with ⟨rfl, -⟩
    exact {
      first := .nil
      std := fun _ _ left h => by contradiction
      uring := fun _ => rfl
      ne_nil := fun _ h => absurd rfl h
      holds := by
        have hnil : leftovers kind msgs state [] = [] := rfl
        rw [hnil, List.flatten_nil, Message.encode_nil, List.append_nil]
        exact hholds
    }
  | cons env envs ih =>
    rw [List.map_cons, System.run_cons_eq_some] at hrun
    rcases hrun with ⟨t, es, es', hstep, hrest, rfl⟩
    have hcons : leftovers kind msgs state (env :: envs)
        = kind.leaves state (msgs, env) :: leftovers kind msgs t envs := by
      unfold leftovers
      rw [List.map_cons, System.trace, hstep]
      rfl
    rw [List.map_cons] at hmeets
    unfold System.Meets at hmeets
    rw [hstep] at hmeets
    rcases log_step hstep with ⟨rfl, rfl⟩
    rcases hfailed _ (List.mem_append_left _ List.mem_cons_self) with ⟨error, herr⟩
    have hleft := hholds.err hbuffers hmeets.1 herr
    have hholds' := hleft.holds
    rw [Nat.max_self] at hholds'
    have attempts := ih hholds' hmeets.2 hrest
      fun entry hentry => hfailed entry (List.mem_append_right _ hentry)
    exact {
      first := by
        rw [hcons]
        exact .cons hleft.first attempts.first
      std := by
        intro hstd hlog left hhead
        rw [hcons, List.head?_cons, Option.mem_some_iff] at hhead
        subst hhead
        exact hleft.std hstd hlog
      uring := by
        intro hkind
        rw [hcons, attempts.uring hkind, (hleft.uring hkind).1]
        rfl
      ne_nil := fun hkind _ => (hleft.uring hkind).2
      holds := by
        rw [hcons, List.flatten_cons, Message.encode_append, ← List.append_assoc]
        exact attempts.holds
    }

/--
The log behind the batches `earlier` and attempts at `msgs` that failed under `envs`, the first of
them in `state`, when an attempt has succeeded.
-/
structure Repeated (kind : Kind) (earlier msgs : List Message) (state : Writer × File) (envs : List Env)
    (file : File) : Prop where
  attempts : List.Forall₂ (fun _ left => left <+: msgs) envs (leftovers kind msgs state envs)
  first : kind.isStd = true → ∀ left ∈ (leftovers kind msgs state envs).head?, left ≠ []
  bytes : file = Message.encode (earlier ++ (leftovers kind msgs state envs).flatten ++ msgs)
  once : file = Message.encode (earlier ++ msgs)
      ↔
    if kind.isStd then envs = [] else ∀ env ∈ envs, kind.failsFirst (msgs, env) = true

theorem holds_of_ok {calls : List Call} {past : List (Call × Outcome)}
    (hreach : (Persist.log kind []).Reaches calls state past)
    (hmeets : (Persist.log kind []).Meets kind.Retryable (Persist.log kind []).init calls)
    (hok : ∀ entry ∈ past, ∃ n, entry.2 = .ok n)
    : kind.Holds (Message.encode (calls.flatMap Prod.fst)) 0 state
        ∧
      state.2 = Message.encode (calls.flatMap Prod.fst) := by
  rw [← map_fst_of_reaches hreach]
  refine System.reaches_inv_of_meets (fun state past =>
    (∀ entry ∈ past, ∃ n, entry.2 = .ok n) →
      kind.Holds (Message.encode ((past.map Prod.fst).flatMap Prod.fst)) 0 state
        ∧
      state.2 = Message.encode ((past.map Prod.fst).flatMap Prod.fst)) ?_ ?_ hmeets hreach hok
  case refine_2 => exact fun _ => ⟨kind.holds_create, rfl⟩
  intro s past call s' es hpast hretryable hstep hall
  rcases log_step hstep with ⟨rfl, rfl⟩
  rcases hpast fun entry hentry => hall entry (List.mem_append_left _ hentry) with ⟨hholds, -⟩
  rcases hall _ List.mem_concat_self with ⟨n, hn⟩
  rcases hholds.ok hretryable hn with ⟨-, hholds', hfile⟩
  rw [List.map_append, List.flatMap_append, Message.encode_append]
  rw [Nat.zero_sub] at hholds'
  simp only [List.map_singleton, List.flatMap_singleton]
  exact ⟨hholds', hfile (Nat.zero_le _)⟩

/--
A failed batch may be repeated, but what the failed attempts have left in the log stays: of a
`StdWriter` what was put into its buffer, and of an io_uring writer the chunks before the one that
failed.
-/
theorem log_repeated {calls : List Call} {past failed : List (Call × Outcome)} {envs : List Env}
    {env : Env} {n : Nat} (hbuffers : kind.BuffersRecords)
    (hreach : (Persist.log kind []).Reaches calls state past)
    (hmeets : (Persist.log kind []).Meets kind.Retryable (Persist.log kind []).init calls)
    (hpast : ∀ entry ∈ past, ∃ n, entry.2 = .ok n)
    (hrun : (Persist.log kind []).run state (envs.map fun env => (msgs, env)) = some (state', failed))
    (hmeets' : (Persist.log kind []).Meets kind.Retryable state (envs.map fun env => (msgs, env)))
    (hfailed : ∀ entry ∈ failed, ∃ error, entry.2 = .err error)
    (hretryable : kind.Retryable state' (msgs, env))
    (hok : (Writer.writeBatch state' msgs env).2 = .ok n)
    : n = msgs.length
        ∧
      Repeated kind (calls.flatMap Prod.fst) msgs state envs
        (Writer.writeBatch state' msgs env).1.2 := by
  rcases holds_of_ok hreach hmeets hpast with ⟨hholds, hfile⟩
  have attempts := run_failed (hholds.mono (Nat.zero_le _)) hbuffers hmeets' hrun hfailed
  rcases attempts.holds.ok hretryable hok with ⟨hn, -, hfile'⟩
  have hencode := hfile' (Nat.le_refl _)
  rw [← Message.encode_append, ← Message.encode_append] at hencode
  refine ⟨hn, attempts.first, fun hkind => attempts.std hkind hfile, hencode, ?_⟩
  rw [hencode, encode_injective.eq_iff, List.append_assoc, List.append_cancel_left_eq,
    List.append_left_eq_self]
  cases hkind : kind.isStd with
  | true =>
    rw [if_pos rfl]
    have hfirst := attempts.first
    have hstd := attempts.std hkind hfile
    generalize leftovers kind msgs state envs = lefts at hfirst hstd
    cases hfirst with
    | nil => exact ⟨fun _ => rfl, fun _ => rfl⟩
    | @cons _ left _ lefts hleft hrest =>
      -- the first attempt has left something
      have hne := hstd left rfl
      simp [hne]
  | false =>
    rw [if_neg (by simp), attempts.uring hkind, List.flatten_eq_nil_iff, List.forall_mem_map]
    constructor
    . intro h env henv
      exact (Kind.kept_eq_nil_iff hkind (attempts.ne_nil hkind (List.ne_nil_of_mem henv))).mp
        (h env henv)
    . intro h env henv
      exact (Kind.kept_eq_nil_iff hkind (attempts.ne_nil hkind (List.ne_nil_of_mem henv))).mpr
        (h env henv)

theorem log_run_one (kind : Kind) (file : File) (state : Writer × File) (call : Call)
    : (Persist.log kind file).run state [call]
        =
      some ((Writer.writeBatch state call.1 call.2).1,
        [(call, (Writer.writeBatch state call.1 call.2).2)]) := rfl

def failedChunk : Env :=
  ⟨[], [.default, ⟨.all, [.failed noSpace], [], [], []⟩]⟩

theorem log_repeated_secondChunk
    : ∃ state failed,
        (Persist.log (.uring 1 (by decide)) []).run (.create (.uring 1 (by decide)), [])
            [([.new "a" [], .new "b" []], failedChunk)] = some (state, failed)
          ∧
        (Writer.writeBatch state [.new "a" [], .new "b" []] ⟨[], []⟩).1.2
          = Message.encode [.new "a" [], .new "a" [], .new "b" []]
          ∧
        Repeated (.uring 1 (by decide)) [] [.new "a" [], .new "b" []]
          (.create (.uring 1 (by decide)), []) [failedChunk]
          (Writer.writeBatch state [.new "a" [], .new "b" []] ⟨[], []⟩).1.2 := by
  have hreach : (Persist.log (.uring 1 (by decide)) []).Reaches []
      (.create (.uring 1 (by decide)), []) [] := rfl
  have hrun : (Persist.log (.uring 1 (by decide)) []).run (.create (.uring 1 (by decide)), [])
      ([failedChunk].map fun env => ([.new "a" [], .new "b" []], env)) = some (_, _) :=
    log_run_one _ [] _ _
  have hfailed : ∀ entry ∈ [(([Message.new "a" [], .new "b" []], failedChunk), (Writer.writeBatch
      (.create (.uring 1 (by decide)), []) [.new "a" [], .new "b" []] failedChunk).2)],
      ∃ error, entry.2 = .err error := by
    intro entry hentry
    rw [List.mem_singleton.mp hentry]
    exact ⟨.os noSpace, by decide +kernel⟩
  have hok : (Writer.writeBatch (Writer.writeBatch (.create (.uring 1 (by decide)), [])
      [.new "a" [], .new "b" []] failedChunk).1 [.new "a" [], .new "b" []] ⟨[], []⟩).2 = .ok 2 := by
    decide +kernel
  have hrepeated := log_repeated (show (Kind.uring 1 (by decide)).BuffersRecords from trivial) hreach
    trivial (by simp) hrun (by decide +kernel) hfailed (by decide +kernel) hok
  exact ⟨_, _, hrun, by decide +kernel, hrepeated.2⟩

/--
The flush of a batch of one message fails, and its record is still in the buffer when the batch is
repeated.
-/
theorem log_not_repeated
    : ¬ ∀ (kind : Kind) (calls : List Call) (state state' : Writer × File)
        (past failed : List (Call × Outcome)) (msgs : List Message) (envs : List Env) (env : Env)
        (n : Nat), kind.BuffersRecords →
        (Persist.log kind []).Reaches calls state past →
        (Persist.log kind []).Meets kind.Retryable (Persist.log kind []).init calls →
        (∀ entry ∈ past, ∃ n, entry.2 = .ok n) →
        (Persist.log kind []).run state (envs.map fun env => (msgs, env)) = some (state', failed) →
        (Persist.log kind []).Meets kind.Retryable state (envs.map fun env => (msgs, env)) →
        (∀ entry ∈ failed, ∃ error, entry.2 = .err error) →
        kind.Retryable state' (msgs, env) →
        (Writer.writeBatch state' msgs env).2 = .ok n →
        (Writer.writeBatch state' msgs env).1.2
          = Message.encode (calls.flatMap Prod.fst) ++ Message.encode msgs := by
  intro h
  have hrun := log_run_one (.std stdBufCap) [] (.create (.std stdBufCap), [])
    ([.new "a" []], ⟨[.failed noSpace], []⟩)
  have hfile := h (.std stdBufCap) [] _ _ [] _ [.new "a" []] [⟨[.failed noSpace], []⟩] ⟨[], []⟩ 1
    (show 64 < stdBufCap by decide) rfl trivial (by simp) hrun (by decide +kernel) ?_
    (by decide +kernel) (by decide +kernel)
  . have hlength := congrArg List.length hfile
    revert hlength
    decide +kernel
  . intro entry hentry
    rw [List.mem_singleton.mp hentry]
    exact ⟨.os noSpace, by decide +kernel⟩

end Persist
