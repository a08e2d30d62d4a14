import Cadence.Persist.Lemmas.CleanRing

/-!
This module contains which memory the kernel reads for the io_uring writers: the operations that it
has not executed, where they find their bytes, and when none of them can find freed memory.
-/

open Lts

namespace Persist

def Sqe.Live (sqe : Sqe) : Prop :=
  sqe.source ≠ .freed

/--
The operation reads the first bytes of a registered buffer of `size` bytes.
-/
structure Sqe.Registered (size : Nat) (sqe : Sqe) : Prop where
  source_eq : sqe.source = .registered
  len_le : sqe.len ≤ size

theorem Sqe.Registered.live {size : Nat} {sqe : Sqe} (h : sqe.Registered size) : sqe.Live := by
  unfold Live
  rw [h.source_eq]
  simp

theorem Sqe.Registered.release {size : Nat} {sqe : Sqe} (h : sqe.Registered size)
    : sqe.release.Registered size where
  source_eq := congrArg Source.release h.source_eq
  len_le := h.len_le

theorem Flight.written_congr {mem mem' : Memory} (hmem : mem'.registered = mem.registered)
    {flight : Flight} (h : flight.sqe.Live) : flight.written mem' = flight.written mem := by
  have hbytes : flight.sqe.source.bytes mem' = flight.sqe.source.bytes mem := by
    unfold Sqe.Live at h
    cases hsource : flight.sqe.source with
    | owned data => rfl
    | registered => exact hmem
    | freed => exact absurd hsource h
  unfold written
  rw [hbytes]

namespace Ring

/--
The operations whose bytes the kernel has still to read satisfy `P`.
-/
structure Unread (P : Sqe → Prop) (ring : Ring) : Prop where
  sq : ∀ sqe ∈ ring.sq, P sqe
  submitted : ∀ flight ∈ ring.submitted, P flight.sqe

variable {P : Sqe → Prop} {ring : Ring} {file : File} {mem mem' : Memory}

theorem unread_new : Ring.new.Unread P where
  sq := fun _ h => by contradiction
  submitted := fun _ h => by contradiction

theorem Unread.mono {Q : Sqe → Prop} (h : ring.Unread P) (hle : ∀ sqe, P sqe → Q sqe)
    : ring.Unread Q where
  sq := fun sqe hsqe => hle sqe (h.sq sqe hsqe)
  submitted := fun flight hflight => hle flight.sqe (h.submitted flight hflight)

theorem Unread.release {Q : Sqe → Prop} (h : ring.Unread P) (hle : ∀ sqe, P sqe → Q sqe.release)
    : ring.release.Unread Q where
  sq := by
    intro sqe hsqe
    rcases List.mem_map.mp hsqe with ⟨sqe', hsqe', rfl⟩
    exact hle sqe' (h.sq sqe' hsqe')
  submitted := by
    intro flight hflight
    rcases List.mem_map.mp hflight with ⟨flight', hflight', rfl⟩
    exact hle flight'.sqe (h.submitted flight' hflight')

theorem Unread.pushAll {entries : Nat} {sqes : List Sqe} (h : ring.Unread P)
    (hsqes : ∀ sqe ∈ sqes, P sqe) : (ring.pushAll entries sqes).1.Unread P := by
  induction sqes generalizing ring with
  | nil => exact h
  | cons sqe sqes ih =>
    rw [List.forall_mem_cons] at hsqes
    unfold Ring.pushAll Ring.push
    by_cases hroom : ring.sq.length < entries
    . rw [if_pos hroom]
      refine ih ⟨?_, h.submitted⟩ hsqes.2
      rw [List.forall_mem_append, List.forall_mem_singleton]
      exact ⟨h.sq, hsqes.1⟩
    . rw [if_neg hroom]
      exact h

theorem sqe_mem_of_mem_flights {replies : List Reply} {sqes : List Sqe} {flight : Flight}
    (h : flight ∈ flights replies sqes) : flight.sqe ∈ sqes := by
  induction sqes generalizing replies with
  | nil => contradiction
  | cons sqe sqes ih =>
    unfold flights at h
    rcases List.mem_cons.mp h with rfl | h
    . exact List.mem_cons_self
    . exact List.mem_cons_of_mem _ (ih h)

theorem Unread.take (h : ring.Unread P) (n : Nat) (replies : List Reply)
    : (ring.take n replies).Unread P where
  sq := fun sqe hsqe => h.sq sqe (List.mem_of_mem_drop hsqe)
  submitted := by
    intro flight hflight
    rcases List.mem_append.mp hflight with hflight | hflight
    . exact h.submitted flight hflight
    . exact h.sq flight.sqe (List.mem_of_mem_take (sqe_mem_of_mem_flights hflight))

theorem Unread.post (h : ring.Unread P) (k : Nat) : (ring.post k).Unread P := by
  unfold Ring.post
  split
  . exact ⟨h.sq, h.submitted⟩
  . exact h

theorem Unread.foldl_post (h : ring.Unread P) (ks : List Nat)
    : (ks.foldl Ring.post ring).Unread P := by
  induction ks generalizing ring with
  | nil => exact h
  | cons k ks ih => exact ih (h.post k)

theorem Unread.exec (h : ring.Unread P) (k : Nat) : (exec mem (ring, file) k).1.Unread P := by
  unfold Ring.exec
  split
  next flight rest hpick =>
    refine ⟨h.sq, ?_⟩
    intro flight' hflight'
    apply h.submitted
    rw [← (perm_of_pick hpick).mem_iff]
    exact List.mem_cons_of_mem _ hflight'
  next => exact h

theorem exec_congr (hmem : mem'.registered = mem.registered) (h : ring.Unread Sqe.Live) (k : Nat)
    : exec mem' (ring, file) k = exec mem (ring, file) k := by
  unfold exec
  split
  next flight rest hpick =>
    have hflight : flight ∈ ring.submitted := by
      rw [← (perm_of_pick hpick).mem_iff]
      exact List.mem_cons_self
    rw [Flight.written_congr hmem (h.submitted flight hflight)]
  next => rfl

theorem Unread.foldl_exec (h : ring.Unread P) (ks : List Nat)
    : (ks.foldl (Ring.exec mem) (ring, file)).1.Unread P := by
  induction ks generalizing ring file with
  | nil => exact h
  | cons k ks ih => exact ih (h.exec k)

theorem foldl_exec_congr (hmem : mem'.registered = mem.registered) (h : ring.Unread Sqe.Live)
    (ks : List Nat) : ks.foldl (exec mem') (ring, file) = ks.foldl (exec mem) (ring, file) := by
  induction ks generalizing ring file with
  | nil => rfl
  | cons k ks ih =>
    rw [List.foldl_cons, List.foldl_cons, exec_congr hmem h]
    exact ih (h.exec k)

theorem Unread.complete (h : ring.Unread P) : (complete mem (ring, file)).1.Unread P := by
  unfold Ring.complete
  dsimp only
  split
  . exact (h.exec 0).post 0
  . exact h.post 0

theorem complete_congr (hmem : mem'.registered = mem.registered) (h : ring.Unread Sqe.Live)
    : complete mem' (ring, file) = complete mem (ring, file) := by
  unfold complete
  rw [exec_congr hmem h]

theorem Unread.completes (h : ring.Unread P) (n : Nat)
    : (completes mem n (ring, file)).1.Unread P := by
  induction n generalizing ring file with
  | zero => exact h
  | succ n ih => exact ih h.complete

theorem completes_congr (hmem : mem'.registered = mem.registered) (h : ring.Unread Sqe.Live)
    (n : Nat) : completes mem' n (ring, file) = completes mem n (ring, file) := by
  induction n generalizing ring file with
  | zero => rfl
  | succ n ih =>
    unfold completes
    rw [complete_congr hmem h]
    exact ih h.complete

theorem Unread.posts (h : ring.Unread P) (taken : Nat) (env : ChunkEnv)
    : (env.posts.foldl Ring.post
        (env.execs.foldl (Ring.exec mem) (ring.take taken env.replies, file)).1).Unread P :=
  ((h.take taken env.replies).foldl_exec env.execs).foldl_post env.posts

theorem Unread.submitAndWait (h : ring.Unread P) (want : Nat) (env : ChunkEnv)
    : (submitAndWait mem want env (ring, file)).1.1.Unread P := by
  unfold Ring.submitAndWait
  cases env.submit with
  | fails errno => exact h.posts _ env
  | all =>
    dsimp only
    split
    . exact (h.posts _ env).completes _
    . exact h.posts _ env
  | leaves n pos =>
    dsimp only
    split
    . exact (h.posts _ env).completes _
    . exact h.posts _ env

theorem submitAndWait_congr (hmem : mem'.registered = mem.registered) (h : ring.Unread Sqe.Live)
    (want : Nat) (env : ChunkEnv)
    : submitAndWait mem' want env (ring, file) = submitAndWait mem want env (ring, file) := by
  have hexecs (taken : Nat) : env.execs.foldl (exec mem') (ring.take taken env.replies, file)
      = env.execs.foldl (exec mem) (ring.take taken env.replies, file) :=
    foldl_exec_congr hmem (h.take taken env.replies) env.execs
  unfold submitAndWait wait
  simp only [hexecs]
  rw [completes_congr hmem (h.posts _ env)]

theorem Unread.round {Q : Sqe → Prop} (h : ring.Unread P) (hle : ∀ sqe, P sqe → Q sqe.release)
    (entries : Nat) {sqes : List Sqe} (hsqes : ∀ sqe ∈ sqes, P sqe) (want : Nat) (env : ChunkEnv)
    : (round entries mem sqes want env (ring, file)).1.1.Unread Q := by
  have hpush : (ring.pushAll entries sqes).1.Unread P := h.pushAll hsqes
  have hwait : (Ring.submitAndWait mem want env ((ring.pushAll entries sqes).1, file)).1.1.Unread P :=
    hpush.submitAndWait want env
  unfold Ring.round
  generalize ring.pushAll entries sqes = pushed at hpush hwait
  rcases pushed with ⟨ring', _ | _⟩
  . exact hpush.release hle
  . dsimp only at hwait ⊢
    generalize Ring.submitAndWait mem want env (ring', file) = waited at hwait
    rcases waited with ⟨⟨ring'', file'⟩, _ | errno⟩
    . dsimp only
      split
      . exact Unread.release ⟨hwait.sq, hwait.submitted⟩ hle
      . exact Unread.release ⟨hwait.sq, hwait.submitted⟩ hle
    . exact hwait.release hle

theorem round_congr (hmem : mem'.registered = mem.registered) (h : ring.Unread Sqe.Live)
    (entries : Nat) {sqes : List Sqe} (hsqes : ∀ sqe ∈ sqes, sqe.Live) (want : Nat) (env : ChunkEnv)
    : round entries mem' sqes want env (ring, file) = round entries mem sqes want env (ring, file) := by
  have hpush : (ring.pushAll entries sqes).1.Unread Sqe.Live := h.pushAll hsqes
  unfold round
  generalize ring.pushAll entries sqes = pushed at hpush
  rcases pushed with ⟨ring', _ | _⟩
  . rfl
  . dsimp only
    rw [submitAndWait_congr hmem hpush]

end Ring

/--
What is known of the behaviour of the operating system without the content of freed memory.
-/
def ChunkEnv.forget (env : ChunkEnv) : ChunkEnv :=
  { env with freed := [] }

def Env.forget (env : Env) : Env :=
  { env with chunks := env.chunks.map ChunkEnv.forget }

def Call.forget (call : Call) : Call :=
  (call.1, call.2.forget)

theorem headD_forget (envs : List ChunkEnv)
    : (envs.map ChunkEnv.forget).headD .default = (envs.headD .default).forget := by
  cases envs with
  | nil => rfl
  | cons env envs => rfl

namespace UringFixedWriter

/--
Nothing that is left in the ring reads anything but the registered buffer.
-/
def Sound (w : UringFixedWriter) : Prop :=
  w.ring.Unread (Sqe.Registered w.buf.length)

theorem writeChunk_sound {w : UringFixedWriter} (h : w.Sound) (file : File) (chunk : List Message)
    (env : ChunkEnv)
    : (writeChunk env (w, file) chunk).1.1.Sound
        ∧
      writeChunk env.forget (w, file) chunk = writeChunk env (w, file) chunk := by
  by_cases hfits : chunk.length * 64 ≤ w.buf.length
  . have hbuf : (pack w.buf chunk).length = w.buf.length := length_pack hfits
    have hring : w.ring.Unread (Sqe.Registered (pack w.buf chunk).length) := by
      rw [hbuf]
      exact h
    have hsqe : ∀ sqe ∈ [(⟨w.offset, len chunk, .registered⟩ : Sqe)],
        sqe.Registered (pack w.buf chunk).length := by
      rw [List.forall_mem_singleton, hbuf]
      exact ⟨rfl, (Nat.mod_le _ _).trans hfits⟩
    have hround : Ring.round 8 ⟨pack w.buf chunk, []⟩ [⟨w.offset, len chunk, .registered⟩] 1 env
          (w.ring, file)
        = Ring.round 8 ⟨pack w.buf chunk, env.freed⟩ [⟨w.offset, len chunk, .registered⟩] 1 env
          (w.ring, file) :=
      Ring.round_congr (by rfl) (hring.mono fun _ => Sqe.Registered.live) 8
        (fun sqe h => (hsqe sqe h).live) 1 env
    have hsound : (Ring.round 8 ⟨pack w.buf chunk, env.freed⟩ [⟨w.offset, len chunk, .registered⟩] 1
        env (w.ring, file)).1.1.Unread (Sqe.Registered (pack w.buf chunk).length) :=
      hring.round (fun _ h => h.release) 8 hsqe 1 env
    constructor
    . unfold writeChunk
      dsimp only
      rw [dif_pos hfits]
      generalize Ring.round _ _ _ _ _ _ = result at hsound
      rcases result with ⟨⟨ring, file'⟩, _ | errno | _⟩
      . exact hsound
      . exact hsound
      . exact hsound
    . unfold writeChunk
      dsimp only
      rw [dif_pos hfits, dif_pos hfits, ← hround]
      rfl
  . unfold writeChunk
    dsimp only
    rw [dif_neg hfits, dif_neg hfits]
    exact ⟨h, rfl⟩

end UringFixedWriter

theorem writeChunks_forget {ω : Type} {f : ChunkEnv → ω × File → List Message → (ω × File) × Round}
    {I : ω → Prop}
    (hchunk : ∀ w file chunk env, I w → I (f env (w, file) chunk).1.1
      ∧ f env.forget (w, file) chunk = f env (w, file) chunk)
    (chunks : List (List Message)) (envs : List ChunkEnv) (written : Nat) {w : ω} (h : I w)
    (file : File)
    : I (writeChunks f chunks envs written (w, file)).1.1
        ∧
      writeChunks f chunks (envs.map ChunkEnv.forget) written (w, file)
        = writeChunks f chunks envs written (w, file) := by
  induction chunks generalizing envs written w file with
  | nil => exact ⟨h, rfl⟩
  | cons chunk chunks ih =>
    have hfirst := hchunk w file chunk (envs.headD .default) h
    unfold writeChunks
    rw [headD_forget, hfirst.2, ← List.map_tail]
    generalize f (envs.headD .default) (w, file) chunk = result at hfirst
    rcases result with ⟨⟨w', file'⟩, _ | errno | _⟩
    . exact ih envs.tail (written + chunk.length) hfirst.1 file'
    . exact ⟨hfirst.1, rfl⟩
    . exact ⟨hfirst.1, rfl⟩

/--
Along a run in which no call depends on the content of freed memory, the whole run does not.
-/
theorem run_forget {kind : Kind} {file : File} {I : Writer × File → Prop}
    {C : Writer × File → Call → Prop}
    (hcall : ∀ s call, I s → C s call → I (Writer.writeBatch s call.1 call.2).1
      ∧ Writer.writeBatch s call.1 call.2.forget = Writer.writeBatch s call.1 call.2)
    (hC : ∀ s call call', Call.forget call' = Call.forget call → C s call → C s call')
    {s s' : Writer × File} {calls calls' : List Call} {past : List (Call × Outcome)} (h : I s)
    (hmeets : (log kind file).Meets C s calls)
    (hcalls : calls'.map Call.forget = calls.map Call.forget)
    (hrun : (log kind file).run s calls = some (s', past))
    : ∃ past',
        (log kind file).run s calls' = some (s', past')
          ∧
        past'.map Prod.snd = past.map Prod.snd := by
  induction calls generalizing s calls' past with
  | nil =>
    rw [List.map_nil, List.map_eq_nil_iff] at hcalls
    subst hcalls
    exact ⟨past, hrun, rfl⟩
  | cons call calls ih =>
    rcases calls' with _ | ⟨call', calls'⟩
    . contradiction
    rw [List.map_cons, List.map_cons, List.cons.injEq] at hcalls
    rw [System.run_cons_eq_some] at hrun
    rcases hrun with ⟨t, es₁, es₂, hstep, hrest, rfl⟩
    rcases log_step hstep with ⟨rfl, rfl⟩
    have hcall' := hcall s call h hmeets.1
    have heq : Writer.writeBatch s call'.1 call'.2 = Writer.writeBatch s call.1 call.2 := by
      rw [← (hcall s call' h (hC s call call' hcalls.1 hmeets.1)).2, ← hcall'.2]
      exact congrArg (fun c : Call => Writer.writeBatch s c.1 c.2) hcalls.1
    rcases ih hcall'.1 hmeets.2 hcalls.2 hrest with ⟨past', hrun', hpast'⟩
    refine ⟨(call', (Writer.writeBatch s call'.1 call'.2).2) :: past', ?_, ?_⟩
    . rw [System.run_cons_eq_some]
      refine ⟨(Writer.writeBatch s call'.1 call'.2).1, _, past', rfl, ?_, rfl⟩
      rw [heq]
      exact hrun'
    . rw [List.map_cons, List.map_append, hpast', heq]
      rfl

/--
`UringFixedWriter` never lets the kernel read freed memory. Whatever the kernel does, also when calls
return early and leave operations behind, every operation that it has still to read points into the
registered buffer, and neither the log nor a result depends on the content of freed memory.
-/
theorem fixed_ignores_freed {capMsgs : Nat} {hpos : 0 < capMsgs} {hle : capMsgs * 64 ≤ 2 ^ 30}
    {file : File} {calls : List Call} {state : Writer × File} {past : List (Call × Outcome)}
    (hreach : (log (.fixed capMsgs hpos hle) file).Reaches calls state past)
    : (∃ w, state.1 = .fixed w ∧ w.ring.Unread (Sqe.Registered w.buf.length))
        ∧
      ∀ calls' : List Call, calls'.map Call.forget = calls.map Call.forget →
        ∃ past',
          (log (.fixed capMsgs hpos hle) file).Reaches calls' state past'
            ∧
          past'.map Prod.snd = past.map Prod.snd := by
  have hcall : ∀ (s : Writer × File) (call : Call), (∃ w, s.1 = .fixed w ∧ w.Sound) → True →
      (∃ w, (Writer.writeBatch s call.1 call.2).1.1 = .fixed w ∧ w.Sound)
        ∧ Writer.writeBatch s call.1 call.2.forget = Writer.writeBatch s call.1 call.2 := by
    rintro ⟨_, file⟩ call ⟨w, rfl, hsound⟩ -
    have hchunks := @writeChunks_forget _ UringFixedWriter.writeChunk UringFixedWriter.Sound
      fun w file chunk env h => UringFixedWriter.writeChunk_sound h file chunk env
    rcases hchunks (chunks w.capMsgs w.cap_pos call.1) call.2.chunks 0 hsound file with
      ⟨hsound', hforget⟩
    refine ⟨⟨_, rfl, hsound'⟩, ?_⟩
    unfold Writer.writeBatch UringFixedWriter.writeBatch
    dsimp only
    rw [← hforget]
    rfl
  constructor
  . refine System.reaches_inv (fun s _ => ∃ w, s.1 = .fixed w ∧ w.Sound) ?_ ⟨_, rfl, Ring.unread_new⟩
      hreach
    intro s past call s' es h hstep
    rcases log_step hstep with ⟨rfl, -⟩
    exact (hcall s call h trivial).1
  . intro calls' hcalls
    exact run_forget hcall (fun _ _ _ _ _ => trivial) ⟨_, rfl, Ring.unread_new⟩
      (System.meets_true _ calls) hcalls hreach

/--
A submission fails and leaves the operation of the call behind. The kernel takes it with that of the
repeated call, and executes it last.
-/
def leftover (freed : List UInt8) : List Call :=
  [([.new "a" []], ⟨[], [⟨.fails ⟨16, by decide⟩, [], [], [], []⟩]⟩),
    ([.new "a" []], ⟨[], [⟨.all, [], [1, 0], [], freed⟩]⟩)]

theorem fixed_ignores_freed_leftover
    : ∃ state past past',
        (log (.fixed 2 (by decide) (by decide)) []).Reaches (leftover []) state past
          ∧
        (∃ w, state.1 = .fixed w ∧ w.ring.Unread (Sqe.Registered w.buf.length))
          ∧
        (log (.fixed 2 (by decide) (by decide)) []).Reaches (leftover (List.replicate 64 7)) state past'
          ∧
        past'.map Prod.snd = past.map Prod.snd := by
  have hreach := (log (.fixed 2 (by decide) (by decide)) []).reaches_get (leftover [])
    (by decide +kernel)
  rcases fixed_ignores_freed hreach with ⟨hring, hforget⟩
  rcases hforget (leftover (List.replicate 64 7)) rfl with ⟨past', hreach', hpast'⟩
  exact ⟨_, _, past', hreach, hring, hreach', hpast'⟩

namespace ChunkWriter

variable {ω : Type} {W : ChunkWriter ω}

end ChunkWriter

/--
In other runs the log can get the content of freed memory in place of a record, and the call for this
record returns `Ok`.
-/
example
    : ((log (.uring 2 (by decide)) []).run (.create (.uring 2 (by decide)), [])
        (leftover (List.replicate 64 7))).map (fun run => (run.1.2, run.2.map Prod.snd))
      = some (List.replicate 64 7, [.err (.os ⟨16, by decide⟩), .ok 1]) := by
  decide +kernel

end Persist
