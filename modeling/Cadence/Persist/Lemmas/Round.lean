import Cadence.File.Transfer
import Cadence.Persist.Lemmas.Ring

/-!
This module contains one round of an io_uring writer on a clean ring: the transfers it makes, and
when it ends with an error.
-/

open File

namespace Persist

namespace Reply

def count : Reply → Nat
  | .transferred n => n
  | .failed _ => 0

def isFailed : Reply → Bool
  | .transferred _ => false
  | .failed _ => true

end Reply

def fails (replies : List Reply) (n : Nat) : Bool :=
  (replies.take n).any Reply.isFailed

def transfers : List Reply → List (List UInt8) → List Transfer
  | _, [] => []
  | replies, data :: units =>
    ⟨data, (replies.headD (.transferred data.length)).count⟩ :: transfers replies.tail units

def Queues (mem : Memory) : Nat → List Sqe → List (List UInt8) → Prop
  | _, [], [] => True
  | offset, sqe :: sqes, data :: units =>
    (sqe.offset = offset ∧ sqe.len = data.length ∧ (sqe.source.bytes mem).take sqe.len = data)
      ∧
    Queues mem (offset + data.length) sqes units
  | _, _, _ => False

theorem payload_transfers (replies : List Reply) (units : List (List UInt8))
    : Transfer.payload (transfers replies units) = units.flatten := by
  fun_induction transfers replies units with
  | case1 => rfl
  | case2 replies data units ih => rw [Transfer.payload_cons, ih, List.flatten_cons]

theorem Queues.length_eq {mem : Memory} {offset : Nat} {sqes : List Sqe}
    {units : List (List UInt8)} (h : Queues mem offset sqes units) : sqes.length = units.length := by
  fun_induction Queues mem offset sqes units with
  | case1 => rfl
  | case2 offset sqe sqes data units ih => rw [List.length_cons, ih h.2, List.length_cons]
  | case3 => contradiction

theorem Queues.writes {mem : Memory} {offset : Nat} {sqes : List Sqe} {units : List (List UInt8)}
    (h : Queues mem offset sqes units) (replies : List Reply)
    : (flights replies sqes).map (Flight.write mem)
        =
      Transfer.layOut offset (transfers replies units) := by
  fun_induction Queues mem offset sqes units generalizing replies with
  | case1 => rfl
  | case2 offset sqe sqes data units ih =>
    rcases h with ⟨⟨hoffset, hlen, hdata⟩, hrest⟩
    have hhead : Flight.write mem ⟨sqe, replies.headD (.transferred sqe.len)⟩
        = (offset, Transfer.done ⟨data, (replies.headD (.transferred data.length)).count⟩) := by
      unfold Flight.write Flight.written Transfer.done
      rw [hoffset, ← hlen, hdata]
      cases replies.headD (.transferred sqe.len) with
      | transferred n => rfl
      | failed errno => simp [Reply.count]
    unfold flights transfers Transfer.layOut
    rw [List.map_cons, hhead, ih hrest]
  | case3 => contradiction

theorem result_neg_iff (flight : Flight) : flight.result < 0 ↔ flight.reply.isFailed = true := by
  unfold Flight.result Reply.isFailed
  cases flight.reply with
  | transferred n => simp
  | failed errno =>
    have := errno.pos
    simp
    omega

theorem exists_result_neg_iff (replies : List Reply) (sqes : List Sqe)
    : (∃ flight ∈ flights replies sqes, flight.result < 0) ↔ fails replies sqes.length = true := by
  fun_induction flights replies sqes with
  | case1 => simp [fails]
  | case2 replies sqe sqes ih =>
    rw [List.exists_mem_cons_iff, ih, result_neg_iff]
    cases replies with
    | nil => simp [fails, Reply.isFailed]
    | cons reply replies => simp [fails]

theorem reply_mem_of_result_neg {replies : List Reply} {sqes : List Sqe} {flight : Flight}
    (h : flight ∈ flights replies sqes) (hneg : flight.result < 0) : flight.reply ∈ replies := by
  fun_induction flights replies sqes with
  | case1 => contradiction
  | case2 replies sqe sqes ih =>
    rcases List.mem_cons.mp h with rfl | h
    . rw [result_neg_iff] at hneg
      cases replies with
      | nil => contradiction
      | cons reply replies => apply List.mem_cons_self
    . apply List.mem_of_mem_tail (ih h)

theorem drain_of_nonneg {cq : List Int} (h : ∀ ret ∈ cq, 0 ≤ ret) : drain cq = (none, []) := by
  induction cq with
  | nil => rfl
  | cons ret rest ih =>
    have := h ret List.mem_cons_self
    unfold drain
    rw [dif_neg (by omega), ih fun ret' hret' => h ret' (List.mem_cons_of_mem _ hret')]

theorem drain_snd_of_none (cq : List Int) (h : (drain cq).1 = none) : (drain cq).2 = [] := by
  fun_induction drain cq with
  | case1 => rfl
  | case2 ret rest hneg => contradiction
  | case3 ret rest hneg ih => exact ih h

theorem drain_of_neg {cq : List Int} (h : ∃ ret ∈ cq, ret < 0)
    : ∃ errno rest,
        drain cq = (some errno, rest)
          ∧
        -(errno.code : Int) ∈ cq
          ∧
        ((∀ ret ∈ cq.dropLast, 0 ≤ ret) → rest = []) := by
  induction cq with
  | nil => simp at h
  | cons ret rest ih =>
    unfold drain
    by_cases hret : ret < 0
    . -- the first negative completion ends the loop, and `rest` is left unread
      rw [dif_pos hret]
      refine ⟨_, _, rfl, ?_, ?_⟩
      . have hcode : -((-ret).toNat : Int) = ret := by omega
        rw [hcode]
        apply List.mem_cons_self
      . intro hlast
        cases rest with
        | nil => rfl
        | cons ret' rest' =>
          have := hlast ret (by simp)
          omega
    . rw [dif_neg hret]
      have hrest : ∃ ret ∈ rest, ret < 0 := by
        rw [List.exists_mem_cons_iff] at h
        apply h.resolve_left hret
      rcases ih hrest with ⟨errno, rest', hdrain, hmem, hlast⟩
      refine ⟨errno, rest', hdrain, List.mem_cons_of_mem _ hmem, ?_⟩
      intro hcq
      apply hlast
      intro ret' hret'
      apply hcq
      rw [List.dropLast_cons_of_ne_nil (by rintro rfl; simp at hret')]
      apply List.mem_cons_of_mem _ hret'

def completions (env : ChunkEnv) (sqes : List Sqe) : List Int :=
  (Ring.submitAndWait ⟨[], []⟩ sqes.length env (⟨sqes, [], [], []⟩, [])).1.1.cq

namespace Ring

theorem exec_fst {mem mem' : Memory} {state state' : Ring × File} (h : state.1 = state'.1) (k : Nat)
    : (exec mem state k).1 = (exec mem' state' k).1 := by
  unfold exec
  rw [h]
  split
  . rfl
  . exact h

theorem foldl_exec_fst {mem mem' : Memory} {state state' : Ring × File} (h : state.1 = state'.1)
    (ks : List Nat) : (ks.foldl (exec mem) state).1 = (ks.foldl (exec mem') state').1 := by
  induction ks generalizing state state' with
  | nil => exact h
  | cons k ks ih => exact ih (exec_fst h k)

theorem complete_fst {mem mem' : Memory} {state state' : Ring × File} (h : state.1 = state'.1)
    : (complete mem state).1 = (complete mem' state').1 := by
  unfold complete
  rw [h]
  split
  . dsimp only
    rw [exec_fst h]
  . dsimp only
    rw [h]

theorem wait_fst {mem mem' : Memory} {want : Nat} {state state' : Ring × File}
    (h : state.1 = state'.1) : (wait mem want state).1 = (wait mem' want state').1 := by
  unfold wait
  rw [h]
  generalize want - state'.1.cq.length = n
  induction n generalizing state state' with
  | zero => exact h
  | succ n ih => exact ih (complete_fst h)

theorem submitAndWait_fst (mem mem' : Memory) (want : Nat) (env : ChunkEnv) (ring : Ring)
    (file file' : File)
    : (submitAndWait mem want env (ring, file)).1.1
        =
      (submitAndWait mem' want env (ring, file')).1.1 := by
  -- executing an operation moves it along the ring, whatever bytes it writes
  have hexec : ∀ n, (env.execs.foldl (exec mem) (ring.take n env.replies, file)).1
      = (env.execs.foldl (exec mem') (ring.take n env.replies, file')).1 := by
    intro n
    apply foldl_exec_fst
    rfl
  unfold submitAndWait
  dsimp only
  cases env.submit with
  | fails errno =>
    dsimp only
    rw [hexec]
  | all =>
    dsimp only
    rw [hexec]
    split
    . exact wait_fst rfl
    . rfl
  | leaves n pos =>
    dsimp only
    rw [hexec]
    split
    . exact wait_fst rfl
    . rfl

theorem pushAll_new {entries : Nat} {sqes : List Sqe} (h : sqes.length ≤ entries)
    : Ring.new.pushAll entries sqes = (⟨sqes, [], [], []⟩, true) := by
  rw [pushAll_eq (by simpa [Ring.new] using h)]
  rfl

/--
A round of which the kernel takes all operations: the ring is left with the completions that are not
read, and the file has the transfers, in whatever order they were made.
-/
theorem round_all {entries offset : Nat} {env : ChunkEnv} {sqes : List Sqe}
    {units : List (List UInt8)} (mem : Memory) (file : File) (hsubmit : env.submit = .all)
    (hlength : sqes.length ≤ entries) (hqueues : Queues mem offset sqes units)
    : round entries mem sqes sqes.length env (.new, file)
        =
      (({ Ring.new with cq := (drain (completions env sqes)).2 },
          file.pwriteAll (Transfer.layOut offset (transfers env.replies units))),
        match (drain (completions env sqes)).1 with
        | some errno => .err errno
        | none => .done) := by
  rcases submitAndWait_all mem hsubmit sqes file with ⟨done, posted, hdone, hposted, hwait⟩
  have hcompletions : completions env sqes = posted.map Flight.result := by
    unfold completions
    rw [submitAndWait_fst _ mem _ _ _ _ file, hwait]
  have hfile : file.pwriteAll (done.map (Flight.write mem))
      = file.pwriteAll (Transfer.layOut offset (transfers env.replies units)) := by
    rw [← hqueues.writes]
    apply Eq.symm
    apply pwriteAll_perm
    . rw [hqueues.writes]
      apply Transfer.layOut_disjoint
    . exact (hdone.symm).map _
  unfold round
  rw [pushAll_new hlength]
  dsimp only
  rw [hwait, ← hcompletions, hfile]
  dsimp only
  rcases drain (completions env sqes) with ⟨errno | errno, cq⟩
  . rfl
  . rfl

theorem round_fails {entries : Nat} {env : ChunkEnv} {sqes : List Sqe} {errno : Errno}
    (mem : Memory) (want : Nat) (file : File) (hsubmit : env.submit = .fails errno)
    (hlength : sqes.length ≤ entries)
    : (round entries mem sqes want env (.new, file)).2 = .err errno := by
  have hwait : (submitAndWait mem want env (⟨sqes, [], [], []⟩, file)).2 = some errno := by
    unfold submitAndWait
    rw [hsubmit]
  unfold round
  rw [pushAll_new hlength]
  dsimp only
  generalize submitAndWait mem want env (⟨sqes, [], [], []⟩, file) = result at hwait
  rcases result with ⟨⟨ring, file'⟩, error⟩
  dsimp only at hwait
  rw [hwait]

end Ring

theorem completions_perm {env : ChunkEnv} (hsubmit : env.submit = .all) (sqes : List Sqe)
    : (completions env sqes).Perm ((flights env.replies sqes).map Flight.result) := by
  rcases Ring.submitAndWait_all ⟨[], []⟩ hsubmit sqes [] with ⟨_, posted, _, hposted, hwait⟩
  unfold completions
  rw [hwait]
  exact hposted.map _

theorem drain_completions_of_not_fails {env : ChunkEnv} {sqes : List Sqe}
    (hsubmit : env.submit = .all) (h : fails env.replies sqes.length = false)
    : drain (completions env sqes) = (none, []) := by
  apply drain_of_nonneg
  intro ret hret
  rcases List.mem_map.mp ((completions_perm hsubmit sqes).mem_iff.mp hret) with
    ⟨flight, hflight, rfl⟩
  by_contra hneg
  have := (exists_result_neg_iff env.replies sqes).mp ⟨flight, hflight, by omega⟩
  rw [h] at this
  contradiction

theorem drain_completions_of_fails {env : ChunkEnv} {sqes : List Sqe} (hsubmit : env.submit = .all)
    (h : fails env.replies sqes.length = true)
    : ∃ errno rest,
        drain (completions env sqes) = (some errno, rest)
          ∧
        .failed errno ∈ env.replies
          ∧
        ((∀ ret ∈ (completions env sqes).dropLast, 0 ≤ ret) → rest = []) := by
  have hperm := completions_perm hsubmit sqes
  rcases (exists_result_neg_iff env.replies sqes).mpr h with ⟨flight, hflight, hneg⟩
  have hmem : flight.result ∈ completions env sqes :=
    hperm.mem_iff.mpr (List.mem_map_of_mem hflight)
  rcases drain_of_neg ⟨_, hmem, hneg⟩ with ⟨errno, rest, hdrain, herrno, hlast⟩
  refine ⟨errno, rest, hdrain, ?_, hlast⟩
  rcases List.mem_map.mp (hperm.mem_iff.mp herrno) with ⟨other, hother, hresult⟩
  have hcode := errno.pos
  have hreply := reply_mem_of_result_neg hother (by omega)
  unfold Flight.result at hresult
  cases hother' : other.reply with
  | transferred n =>
    rw [hother'] at hresult
    simp only at hresult
    omega
  | failed errno' =>
    rw [hother'] at hresult hreply
    simp only [Int.neg_inj, Int.natCast_inj] at hresult
    have : errno' = errno := by
      rcases errno with ⟨code, hcode⟩
      rcases errno' with ⟨code', hcode'⟩
      simpa using hresult
    rwa [this] at hreply

end Persist
