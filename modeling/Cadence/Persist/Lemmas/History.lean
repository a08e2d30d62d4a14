import Cadence.Persist.Lemmas.Log

/-!
This module contains runs of a writer: what its file holds as long as every batch returns `Ok`, and
when these are the batches.
-/

open Lts File

namespace Persist

def writeBatches (state : Writer × File) (calls : List Call) : Writer × File :=
  calls.foldl (fun state call => (Writer.writeBatch state call.1 call.2).1) state

theorem log_run (kind : Kind) (file : File) (state : Writer × File) (calls : List Call)
    : ∃ past,
        (log kind file).run state calls = some (writeBatches state calls, past)
          ∧
        past.map Prod.fst = calls := by
  induction calls generalizing state with
  | nil => exact ⟨[], rfl, rfl⟩
  | cons call calls ih =>
    rcases ih (Writer.writeBatch state call.1 call.2).1 with ⟨past, hrun, hcalls⟩
    refine ⟨(call, (Writer.writeBatch state call.1 call.2).2) :: past, ?_, ?_⟩
    . rw [System.run_cons_eq_some]
      exact ⟨_, _, _, rfl, hrun, rfl⟩
    . rw [List.map_cons, hcalls]

section Run

variable {kind : Kind} {file : File} {calls : List Call} {state : Writer × File}
variable {past : List (Call × Outcome)}

theorem map_fst_of_reaches (h : (log kind file).Reaches calls state past)
    : past.map Prod.fst = calls := by
  rcases log_run kind file (log kind file).init calls with ⟨past', hrun, hcalls⟩
  unfold System.Reaches at h
  rw [h] at hrun
  simp only [Option.some.injEq, Prod.mk.injEq] at hrun
  rw [hrun.2]
  exact hcalls

theorem log_step {s s' : Writer × File} {call : Call} {es : List (Call × Outcome)}
    (h : (log kind file).step s call = some (s', es))
    : s' = (Writer.writeBatch s call.1 call.2).1
        ∧
      es = [(call, (Writer.writeBatch s call.1 call.2).2)] := by
  unfold log at h
  simp only [Option.some.injEq, Prod.mk.injEq] at h
  exact ⟨h.1.symm, h.2.symm⟩

/--
The state of a writer all of whose batches `calls` have returned `Ok`.
-/
structure History (kind : Kind) (file : File) (state : Writer × File) (calls : List Call)
    : Prop where
  ready : kind.Ready (64 * (calls.flatMap Prod.fst).length) state.1
  file_eq : state.2 = kind.wrote 0 file calls

theorem History.create (kind : Kind) (file : File)
    : History kind file (.create kind, file) [] where
  ready := kind.ready_create
  file_eq := by
    unfold Kind.wrote
    split
    . exact (List.append_nil _).symm
    . rfl

theorem History.writeBatch {call : Call} {n : Nat} (history : History kind file state calls)
    (hwhole : call.2.WholeSubmits) (hok : (Writer.writeBatch state call.1 call.2).2 = .ok n)
    : n = call.1.length
        ∧
      History kind file (Writer.writeBatch state call.1 call.2).1 (calls ++ [call]) := by
  rcases Kind.writeBatch_ok state.2 history.ready hwhole hok with ⟨hn, hfile, hready⟩
  refine ⟨hn, ?_⟩
  exact {
    ready := by
      rw [List.flatMap_append, List.flatMap_singleton, List.length_append, Nat.mul_add]
      exact hready
    file_eq := by
      rw [Kind.wrote_append, Nat.zero_add, ← history.file_eq]
      exact hfile
  }

theorem history_of_ok (h : (log kind file).Reaches calls state past)
    (hok : ∀ entry ∈ past, entry.1.2.WholeSubmits ∧ ∃ n, entry.2 = .ok n)
    : History kind file state calls := by
  rw [← map_fst_of_reaches h]
  refine System.reaches_inv (fun state past =>
    (∀ entry ∈ past, entry.1.2.WholeSubmits ∧ ∃ n, entry.2 = .ok n) →
      History kind file state (past.map Prod.fst)) ?_ (fun _ => History.create kind file) h hok
  intro s past call s' es hhistory hstep hok
  rcases log_step hstep with ⟨rfl, rfl⟩
  have hpast := hhistory fun entry hentry => hok entry (List.mem_append_left _ hentry)
  rcases hok _ List.mem_concat_self with ⟨hwhole, n, hn⟩
  rw [List.map_append]
  exact (hpast.writeBatch hwhole hn).2

theorem Kind.fails_of_noFailure (kind : Kind) {call : Call} (h : call.2.NoFailure)
    : kind.fails call = false := by
  have hbatch : ∀ {ω : Type} (W : ChunkWriter ω) chunks envs,
      (∀ chunk ∈ envs, chunk.NoFailure) → W.batchFails chunks envs = false := by
    intro ω W chunks envs
    fun_induction ChunkWriter.batchFails W chunks envs with
    | case1 => simp
    | case2 chunk chunks envs ih =>
      intro henvs
      rw [ih fun env henv => henvs env (List.mem_of_mem_tail henv), Bool.or_false]
      cases envs with
      | nil => simp [ChunkEnv.fails, ChunkEnv.default, Persist.fails]
      | cons env envs =>
        rcases henvs env List.mem_cons_self with ⟨hsubmit, hreplies⟩
        rw [List.headD_cons]
        unfold ChunkEnv.fails Persist.fails
        rw [hsubmit]
        dsimp only
        rw [List.any_eq_false]
        intro reply hreply
        simp [hreplies reply (List.mem_of_mem_take hreply)]
  cases kind with
  | std bufCap => rfl
  | uring ringDepth h' => exact hbatch _ _ _ h.2
  | fixed capMsgs hpos hle => exact hbatch _ _ _ h.2

theorem History.ok_of_noFailure {call : Call} (history : History kind file state calls)
    (h : call.2.NoFailure)
    : (Writer.writeBatch state call.1 call.2).2 = .ok call.1.length := by
  cases hkind : kind.isStd with
  | true =>
    have hready := history.ready
    rcases state with ⟨w, file'⟩
    cases kind with
    | std bufCap =>
      cases w with
      | std w => exact StdWriter.writeBatch_smooth w file' call.1 h.1
      | uring w => contradiction
      | fixed w => contradiction
    | uring ringDepth h => contradiction
    | fixed capMsgs hpos hle => contradiction
  | false =>
    rcases Kind.writeBatch_uring state.2 hkind history.ready h.wholeSubmits
      (kind.fails_of_noFailure h) with ⟨w', hbatch, -⟩
    rw [hbatch]

theorem history_of_noFailure (kind : Kind) (file : File) (h : ∀ call ∈ calls, call.2.NoFailure)
    : (log kind file).Reaches calls (writeBatches (.create kind, file) calls)
          (calls.map fun call => (call, .ok call.1.length))
        ∧
      History kind file (writeBatches (.create kind, file) calls) calls := by
  rcases log_run kind file (log kind file).init calls with ⟨past, hrun, hcalls⟩
  have hreach : (log kind file).Reaches calls (writeBatches (.create kind, file) calls) past := hrun
  have hinv := System.reaches_inv (fun state past =>
    (∀ entry ∈ past, entry.1.2.NoFailure) →
      History kind file state (past.map Prod.fst)
        ∧
      past = (past.map Prod.fst).map fun call => (call, .ok call.1.length)) ?_
    (fun _ => ⟨History.create kind file, rfl⟩) hreach
  . rw [hcalls] at hinv
    rcases hinv fun entry hentry => h _ (hcalls ▸ List.mem_map_of_mem hentry) with ⟨history, hpast⟩
    rw [hpast] at hreach
    exact ⟨hreach, history⟩
  . intro s past call s' es hhistory hstep hall
    rcases log_step hstep with ⟨rfl, rfl⟩
    rcases hhistory fun entry hentry => hall entry (List.mem_append_left _ hentry) with
      ⟨history, hpast⟩
    have hcall : call.2.NoFailure := hall _ List.mem_concat_self
    have hok := history.ok_of_noFailure hcall
    refine ⟨?_, ?_⟩
    . rw [List.map_append]
      exact (history.writeBatch hcall.wholeSubmits hok).2
    . rw [List.map_append, List.map_append, ← hpast, hok]
      rfl

theorem Kind.transfers_of_isStd (hkind : kind.isStd = true) (calls : List Call)
    : calls.flatMap kind.transfers = [] := by
  cases kind with
  | std bufCap =>
    apply List.flatMap_eq_nil_iff.mpr
    intro call hcall
    rfl
  | uring ringDepth h => contradiction
  | fixed capMsgs hpos hle => contradiction

theorem Kind.wrote_nil_eq_encode_iff (kind : Kind) (calls : List Call)
    : kind.wrote 0 [] calls = Message.encode (calls.flatMap Prod.fst)
        ↔
      Transfer.Complete (calls.flatMap kind.transfers) := by
  unfold wrote
  cases hkind : kind.isStd with
  | true =>
    rw [if_pos rfl, Kind.transfers_of_isStd hkind]
    constructor
    . intro _
      decide
    . intro _
      rfl
  | false =>
    rw [if_neg (by simp), ← Kind.payload_flatMap_transfers hkind]
    apply Transfer.pwriteAll_layOut_eq_payload_iff
    intro t ht
    rcases List.mem_flatMap.mp ht with ⟨call, -, hmem⟩
    apply Kind.data_ne_nil_of_mem_transfers t hmem

/--
What the batch `call` promises by returning `Ok` behind the batches `calls`.
-/
def Written (state : Writer × File) (calls : List Call) (call : Call) : Prop :=
  ∀ n, (Writer.writeBatch state call.1 call.2).2 = .ok n →
    n = call.1.length
      ∧
    (Writer.writeBatch state call.1 call.2).1.2
      = Message.encode (calls.flatMap Prod.fst) ++ Message.encode call.1

theorem History.written_iff {call : Call} {n : Nat} (history : History kind [] state calls)
    (hwhole : call.2.WholeSubmits) (hok : (Writer.writeBatch state call.1 call.2).2 = .ok n)
    : Written state calls call ↔ Transfer.Complete ((calls ++ [call]).flatMap kind.transfers) := by
  rcases history.writeBatch hwhole hok with ⟨hn, history'⟩
  have hencode : Message.encode ((calls ++ [call]).flatMap Prod.fst)
      = Message.encode (calls.flatMap Prod.fst) ++ Message.encode call.1 := by
    rw [List.flatMap_append, List.flatMap_singleton, Message.encode_append]
  rw [← kind.wrote_nil_eq_encode_iff, ← history'.file_eq, hencode]
  constructor
  . intro hwritten
    exact (hwritten n hok).2
  . intro hfile n' hok'
    rw [hok] at hok'
    refine ⟨?_, hfile⟩
    rw [← hn]
    simpa using hok'.symm

/--
A successful batch is in the log: of a `StdWriter` always, and of an io_uring writer exactly if all
operations of the log have been transferred in full. Zeros that are missing before the end of the
file do not show.
-/
theorem log_written_iff {call : Call} (hreach : (log kind []).Reaches calls state past)
    (hpast : ∀ entry ∈ past, entry.1.2.WholeSubmits ∧ ∃ n, entry.2 = .ok n)
    (hwhole : call.2.WholeSubmits)
    : Written state calls call
        ↔
      kind.fails call = true
        ∨
      Transfer.Complete ((calls ++ [call]).flatMap kind.transfers) := by
  have history := history_of_ok hreach hpast
  by_cases hok : ∃ n, (Writer.writeBatch state call.1 call.2).2 = .ok n
  . rcases hok with ⟨n, hok⟩
    rw [history.written_iff hwhole hok]
    constructor
    . intro hcomplete
      exact .inr hcomplete
    . rintro (hfails | hcomplete)
      . rcases Kind.writeBatch_fails state.2 history.ready hwhole hfails with ⟨error, herr⟩
        rw [herr] at hok
        contradiction
      . exact hcomplete
  . constructor
    . intro _
      cases hkind : kind.isStd with
      | true =>
        -- a `StdWriter` makes no io_uring transfers that could be short
        right
        rw [Kind.transfers_of_isStd hkind]
        decide
      | false =>
        left
        by_contra hfails
        rw [Bool.not_eq_true] at hfails
        rcases Kind.writeBatch_uring state.2 hkind history.ready hwhole hfails with ⟨w', hbatch, -⟩
        exact hok ⟨_, congrArg Prod.snd hbatch⟩
    . intro _ n hn
      exact absurd ⟨n, hn⟩ hok

def shortWrite : Env :=
  ⟨[], [⟨.all, [.transferred 10], [], [], []⟩]⟩

theorem log_written_iff_two_batches
    : ∃ state past,
        (log (.uring 1 (by decide)) []).Reaches [([.new "a" []], ⟨[], []⟩)] state past
          ∧
        Written state [([.new "a" []], ⟨[], []⟩)] ([.new "b" []], ⟨[], []⟩) := by
  have hfull : ∀ call ∈ [([Message.new "a" []], (⟨[], []⟩ : Env))], call.2.NoFailure := by
    simp [Env.NoFailure, Smooth]
  have hreach := (history_of_noFailure (.uring 1 (by decide)) [] hfull).1
  refine ⟨_, _, hreach, (log_written_iff hreach ?_ ?_).mpr ?_⟩
  . intro entry hentry
    rw [List.mem_singleton.mp hentry]
    exact ⟨(hfull _ List.mem_cons_self).wholeSubmits, 1, rfl⟩
  . intro chunk hchunk
    contradiction
  . right
    decide +kernel

/--
A record of which only 10 bytes are transferred counts as written.
-/
theorem log_not_written_shortWrite
    : ¬ ∀ (kind : Kind) (calls : List Call) (state : Writer × File) (past : List (Call × Outcome))
        (call : Call), (log kind []).Reaches calls state past →
        (∀ entry ∈ past, entry.1.2.WholeSubmits ∧ ∃ n, entry.2 = .ok n) →
        call.2.WholeSubmits → Written state calls call := by
  intro h
  have hreach : (log (.uring 1 (by decide)) []).Reaches [] _ [] := rfl
  have hwritten := h _ _ _ _ ([.new "a" []], shortWrite) hreach (by simp) (by
    intro chunk hchunk
    rw [List.mem_singleton.mp hchunk]
    trivial) 1 (by decide +kernel)
  have hlength := congrArg List.length hwritten.2
  revert hlength
  decide +kernel

theorem Kind.Ready.drop {offset : Nat} {w : Writer} (h : kind.Ready offset w) (file : File)
    (replies : List Reply) : Writer.drop (w, file) replies = file := by
  cases kind with
  | std bufCap =>
    cases w with
    | std w =>
      have hbuf : w.buf = [] := h
      change (writeLoop file w.buf replies).1 = file
      rw [hbuf]
      cases replies with
      | nil => apply List.append_nil
      | cons reply replies => rfl
    | uring w => contradiction
    | fixed w => contradiction
  | uring ringDepth h' =>
    cases w with
    | uring w => rfl
    | std w => contradiction
    | fixed w => contradiction
  | fixed capMsgs hpos hle =>
    cases w with
    | fixed w => rfl
    | std w => contradiction
    | uring w => contradiction

theorem complete_of_full (h : ∀ call ∈ calls, kind.Full call)
    : Transfer.Complete (calls.flatMap kind.transfers) := by
  have hfull : ∀ t ∈ calls.flatMap kind.transfers, t.data.length ≤ t.count := by
    intro t ht
    rcases List.mem_flatMap.mp ht with ⟨call, hcall, hmem⟩
    exact (h call hcall).2 t hmem
  refine ⟨?_, fun t ht => hfull t (List.mem_of_getLast? ht)⟩
  intro t ht byte hbyte
  rw [List.drop_eq_nil_of_le (hfull t ht)] at hbyte
  contradiction

/--
Every writer produces the same log: the records of all batches in order, whatever the batches, the
depth of the ring, the capacity of the buffers and the order of completion.
-/
theorem log_eq_encode (kind : Kind) (calls : List Call) (h : ∀ call ∈ calls, kind.Full call)
    : ∃ state,
        (log kind []).Reaches calls state (calls.map fun call => (call, .ok call.1.length))
          ∧
        state.2 = Message.encode (calls.flatMap Prod.fst)
          ∧
        (∀ replies, Writer.drop state replies = state.2)
          ∧
        ∀ i, Message.decodeAt state.2 i = (calls.flatMap Prod.fst)[i]? := by
  rcases history_of_noFailure kind [] (fun call hcall => (h call hcall).1) with ⟨hreach, history⟩
  have hfile : (writeBatches (.create kind, []) calls).2
      = Message.encode (calls.flatMap Prod.fst) := by
    rw [history.file_eq, kind.wrote_nil_eq_encode_iff]
    apply complete_of_full h
  refine ⟨_, hreach, hfile, ?_, ?_⟩
  . intro replies
    apply history.ready.drop _ replies
  . intro i
    rw [hfile, Message.decodeAt_encode]

def outOfOrder : ChunkEnv :=
  ⟨.all, [], [1, 0], [1, 0], []⟩

theorem log_eq_encode_two_batches
    : ∃ state,
        (log (.uring 2 (by decide)) []).Reaches
            [([.new "a" [], .new "b" [], .new "c" []], ⟨[], [outOfOrder]⟩), ([.new "d" []], ⟨[], []⟩)]
            state
            [(([.new "a" [], .new "b" [], .new "c" []], ⟨[], [outOfOrder]⟩), .ok 3),
              (([.new "d" []], ⟨[], []⟩), .ok 1)]
          ∧
        Message.decodeAt state.2 2 = some (.new "c" []) := by
  have hfull : ∀ call ∈ [([Message.new "a" [], .new "b" [], .new "c" []],
      (⟨[], [outOfOrder]⟩ : Env)), ([.new "d" []], ⟨[], []⟩)],
      (Kind.uring 2 (by decide)).Full call := by
    intro call hcall
    refine ⟨⟨?_, ?_⟩, ?_⟩
    . rcases List.mem_pair.mp hcall with rfl | rfl
      . simp [Smooth]
      . simp [Smooth]
    . rcases List.mem_pair.mp hcall with rfl | rfl
      . simp [ChunkEnv.NoFailure, outOfOrder]
      . simp
    . revert call
      decide +kernel
  rcases log_eq_encode (.uring 2 (by decide)) _ hfull with ⟨state, hreach, -, -, hdecode⟩
  exact ⟨state, hreach, hdecode 2⟩

end Run
end Persist
