import Cadence.Persist.Impl.Ring

/-!
This module contains what a round on a clean ring does when the kernel takes the whole queue: in
whatever order the operations are executed and posted, the ring is left with the results of exactly
these operations, and the file with exactly their writes.
-/

namespace Persist

theorem pick_eq_none_iff {α : Type} (k : Nat) (l : List α) : pick k l = none ↔ l = [] := by
  unfold pick
  rw [Option.map_eq_none_iff, List.getElem?_eq_none_iff]
  constructor
  . intro h
    by_contra hne
    have := Nat.mod_lt k (List.length_pos_iff.mpr hne)
    omega
  . intro h
    subst h
    apply Nat.zero_le

theorem perm_of_pick {α : Type} {k : Nat} {l rest : List α} {a : α} (h : pick k l = some (a, rest))
    : (a :: rest).Perm l := by
  unfold pick at h
  simp only [Option.map_eq_some_iff, Prod.mk.injEq] at h
  rcases h with ⟨a', ha, rfl, rfl⟩
  rcases List.getElem?_eq_some_iff.mp ha with ⟨hlt, rfl⟩
  apply List.getElem_cons_eraseIdx_perm hlt

namespace Flight

def write (mem : Memory) (flight : Flight) : Nat × List UInt8 :=
  (flight.sqe.offset, flight.written mem)

end Flight

/--
The state of a round whose operations are `all`: those of `done` have been executed, in this order,
and of these the completions of `posted` have been posted.
-/
structure Phase (mem : Memory) (all : List Flight) (file : File)
    (state : Ring × File) (done posted : List Flight) : Prop where
  sq_eq : state.1.sq = []
  perm_all : (done ++ state.1.submitted).Perm all
  perm_done : (posted ++ state.1.executed).Perm done
  cq_eq : state.1.cq = posted.map Flight.result
  file_eq : state.2 = file.pwriteAll (done.map (Flight.write mem))

namespace Phase

variable {mem : Memory} {all : List Flight} {file : File}
variable {state : Ring × File} {done posted : List Flight}

theorem exec (phase : Phase mem all file state done posted) (k : Nat)
    : (∃ done', Phase mem all file (Ring.exec mem state k) done' posted)
        ∧
      (Ring.exec mem state k).1.submitted.length = state.1.submitted.length - 1 := by
  unfold Ring.exec
  split
  . next flight rest h =>
    have hperm := perm_of_pick h
    refine ⟨⟨done ++ [flight], ?_⟩, ?_⟩
    . exact {
        sq_eq := phase.sq_eq
        perm_all := by
          rw [List.append_assoc]
          exact (hperm.append_left done).trans phase.perm_all
        perm_done := by
          rw [← List.append_assoc]
          apply phase.perm_done.append_right [flight]
        cq_eq := phase.cq_eq
        file_eq := by
          rw [List.map_append, File.pwriteAll_append, ← phase.file_eq]
          rfl
      }
    . rw [← hperm.length_eq]
      rfl
  . next h =>
    refine ⟨⟨done, phase⟩, ?_⟩
    rw [(pick_eq_none_iff _ _).mp h]
    rfl

theorem post (phase : Phase mem all file state done posted) (k : Nat)
    : (∃ posted', Phase mem all file (Ring.post state.1 k, state.2) done posted')
        ∧
      (Ring.post state.1 k).executed.length = state.1.executed.length - 1
        ∧
      (Ring.post state.1 k).submitted = state.1.submitted := by
  unfold Ring.post
  split
  . next flight rest h =>
    have hperm := perm_of_pick h
    refine ⟨⟨posted ++ [flight], ?_⟩, ?_, rfl⟩
    . exact {
        sq_eq := phase.sq_eq
        perm_all := phase.perm_all
        perm_done := by
          rw [List.append_assoc]
          exact (hperm.append_left posted).trans phase.perm_done
        cq_eq := by
          rw [List.map_append, ← phase.cq_eq]
          rfl
        file_eq := phase.file_eq
      }
    . rw [← hperm.length_eq]
      rfl
  . next h =>
    refine ⟨⟨posted, phase⟩, ?_, rfl⟩
    rw [(pick_eq_none_iff _ _).mp h]
    rfl

theorem foldl_exec (phase : Phase mem all file state done posted) (ks : List Nat)
    : (∃ done', Phase mem all file (ks.foldl (Ring.exec mem) state) done' posted)
        ∧
      (ks.foldl (Ring.exec mem) state).1.submitted.length
        = state.1.submitted.length - ks.length := by
  induction ks generalizing state done with
  | nil => exact ⟨⟨done, phase⟩, rfl⟩
  | cons k ks ih =>
    rcases phase.exec k with ⟨⟨done', phase'⟩, hlength⟩
    rcases ih phase' with ⟨hphase, hlength'⟩
    refine ⟨hphase, ?_⟩
    rw [List.foldl_cons, hlength', hlength, List.length_cons]
    omega

theorem foldl_post (phase : Phase mem all file state done posted) (ks : List Nat)
    : (∃ posted', Phase mem all file (ks.foldl Ring.post state.1, state.2) done posted')
        ∧
      (ks.foldl Ring.post state.1).executed.length = state.1.executed.length - ks.length
        ∧
      (ks.foldl Ring.post state.1).submitted = state.1.submitted := by
  induction ks generalizing state posted with
  | nil => exact ⟨⟨posted, phase⟩, rfl, rfl⟩
  | cons k ks ih =>
    rcases phase.post k with ⟨⟨posted', phase'⟩, hlength, hsubmitted⟩
    rcases ih phase' with ⟨hphase, hlength', hsubmitted'⟩
    refine ⟨hphase, ?_, hsubmitted'.trans hsubmitted⟩
    rw [List.foldl_cons, hlength', hlength, List.length_cons]
    omega

theorem lengths (phase : Phase mem all file state done posted)
    : done.length + state.1.submitted.length = all.length
        ∧
      posted.length + state.1.executed.length = done.length
        ∧
      state.1.cq.length = posted.length := by
  refine ⟨?_, ?_, ?_⟩
  . rw [← List.length_append, phase.perm_all.length_eq]
  . rw [← List.length_append, phase.perm_done.length_eq]
  . rw [phase.cq_eq, List.length_map]

theorem complete (phase : Phase mem all file state done posted)
    (h : state.1.cq.length < all.length)
    : (∃ done' posted', Phase mem all file (Ring.complete mem state) done' posted')
        ∧
      (Ring.complete mem state).1.cq.length = state.1.cq.length + 1 := by
  have hready : ∃ state' done',
      Ring.complete mem state = (state'.1.post 0, state'.2)
        ∧
      Phase mem all file state' done' posted
        ∧
      0 < state'.1.executed.length := by
    rcases phase.lengths with ⟨hdone, hposted, hcq⟩
    unfold Ring.complete
    by_cases hnil : state.1.executed = []
    . rw [if_pos hnil]
      rcases phase.exec 0 with ⟨⟨done', phase'⟩, hsubmitted⟩
      rcases phase'.lengths with ⟨hdone', hposted', -⟩
      rw [hnil, List.length_nil] at hposted
      exact ⟨_, done', rfl, phase', by omega⟩
    . rw [if_neg hnil]
      exact ⟨state, done, rfl, phase, List.length_pos_iff.mpr hnil⟩
  rcases hready with ⟨state', done', heq, phase', hpos⟩
  rcases phase'.post 0 with ⟨⟨posted', phase''⟩, hexecuted, -⟩
  rw [heq]
  refine ⟨⟨done', posted', phase''⟩, ?_⟩
  rcases phase.lengths with ⟨-, -, hcq⟩
  rcases phase'.lengths with ⟨-, hposted, -⟩
  rcases phase''.lengths with ⟨-, hposted', hcq'⟩
  dsimp only at hposted' hcq' ⊢
  omega

theorem completes (phase : Phase mem all file state done posted) {n : Nat}
    (h : state.1.cq.length + n ≤ all.length)
    : (∃ done' posted', Phase mem all file (Ring.completes mem n state) done' posted')
        ∧
      (Ring.completes mem n state).1.cq.length = state.1.cq.length + n := by
  induction n generalizing state done posted with
  | zero => exact ⟨⟨done, posted, phase⟩, rfl⟩
  | succ n ih =>
    rcases phase.complete (by omega) with ⟨⟨done', posted', phase'⟩, hcq⟩
    have hrest := ih phase' (by omega)
    rw [Ring.completes, hrest.2, hcq]
    exact ⟨hrest.1, by omega⟩

theorem wait (phase : Phase mem all file state done posted)
    : ∃ done' posted',
        Phase mem all file (Ring.wait mem all.length state) done' posted'
          ∧
        (Ring.wait mem all.length state).1.submitted = []
          ∧
        (Ring.wait mem all.length state).1.executed = [] := by
  have hle : state.1.cq.length ≤ all.length := by
    rcases phase.lengths with ⟨hdone, hposted, hcq⟩
    omega
  unfold Ring.wait
  rcases phase.completes (Nat.le_of_eq (Nat.add_sub_of_le hle)) with ⟨⟨done', posted', phase'⟩, hlength⟩
  rcases phase'.lengths with ⟨hdone, hposted, hcq⟩
  refine ⟨done', posted', phase', ?_, ?_⟩
  . apply List.length_eq_zero_iff.mp
    omega
  . apply List.length_eq_zero_iff.mp
    omega

end Phase

theorem length_flights (replies : List Reply) (sqes : List Sqe)
    : (flights replies sqes).length = sqes.length := by
  fun_induction flights replies sqes with
  | case1 => rfl
  | case2 replies sqe sqes ih => rw [List.length_cons, ih, List.length_cons]

namespace Ring

theorem pushAll_eq {entries : Nat} {ring : Ring} {sqes : List Sqe}
    (h : ring.sq.length + sqes.length ≤ entries)
    : ring.pushAll entries sqes = ({ ring with sq := ring.sq ++ sqes }, true) := by
  induction sqes generalizing ring with
  | nil =>
    unfold pushAll
    rw [List.append_nil]
  | cons sqe sqes ih =>
    rw [List.length_cons] at h
    unfold pushAll push
    rw [if_pos (by omega)]
    dsimp only
    rw [ih (by simp; omega)]
    simp

theorem submitAndWait_all (mem : Memory) {env : ChunkEnv} (hsubmit : env.submit = .all)
    (sqes : List Sqe) (file : File)
    : ∃ done posted : List Flight,
        done.Perm (flights env.replies sqes)
          ∧
        posted.Perm (flights env.replies sqes)
          ∧
        submitAndWait mem sqes.length env ((⟨sqes, [], [], []⟩ : Ring), file)
          =
        ((⟨[], [], [], posted.map Flight.result⟩,
          file.pwriteAll (done.map (Flight.write mem))), none) := by
  have phase : Phase mem (flights env.replies sqes) file
      ((⟨sqes, [], [], []⟩ : Ring).take sqes.length env.replies, file) [] [] := by
    exact {
      sq_eq := List.drop_length
      perm_all := by simp [take]
      perm_done := List.Perm.refl _
      cq_eq := rfl
      file_eq := rfl
    }
  rcases phase.foldl_exec env.execs with ⟨⟨done, phase⟩, -⟩
  rcases phase.foldl_post env.posts with ⟨⟨posted, phase⟩, -, -⟩
  rcases phase.wait with ⟨done', posted', phase', hsubmitted, hexecuted⟩
  have hdone := phase'.perm_all
  have hposted := phase'.perm_done
  rw [hsubmitted, List.append_nil] at hdone
  rw [hexecuted, List.append_nil] at hposted
  refine ⟨done', posted', hdone, hposted.trans hdone, ?_⟩
  unfold submitAndWait
  rw [hsubmit]
  dsimp only
  rw [if_pos phase.sq_eq]
  rw [length_flights] at phase' hsubmitted hexecuted
  generalize wait mem sqes.length _ = state at phase' hsubmitted hexecuted
  rcases state with ⟨⟨sq, submitted, executed, cq⟩, file'⟩
  have hsq : sq = [] := phase'.sq_eq
  have hcq : cq = posted'.map Flight.result := phase'.cq_eq
  have hfile : file' = file.pwriteAll (done'.map (Flight.write mem)) := phase'.file_eq
  dsimp only at hsubmitted hexecuted
  rw [hsq, hsubmitted, hexecuted, hcq, hfile]

end Ring
end Persist
