import SamplePrograms.JobQueue.CondVAccounting

/-!
# The enqueue section of `prog_condV.c` without a job

`thread_callback_enqueue` reports that `calloc` has failed, and goes on into its critical section.
If the queue is empty, the section counts and signals a job that does not exist. If it is not
empty, the section writes through the null pointer. So the sections are sound in every run exactly
if each enqueue thread gets its memory.
-/

namespace SamplePrograms.JobQueue.CondV
open Memory Threads Program

variable {T : Type*} [Fintype T] [DecidableEq T]

/-- At the end of the section the count is the length of the queue. A thread without a job
changes neither of them, signals nobody and writes through no null pointer. -/
structure SoundSections (threads : ThreadList T) : Prop where
  counted : ∀ σ t, (condV threads).Reachable σ → σ.status t = .running .eUnlockCount →
    ∃ l, Segment σ.shared.jobs.cell Job.next σ.shared.jobQueue l none ∧
      σ.shared.jobQueueCount = l.length
  withoutJob : ∀ σ τ t, (condV threads).Reachable σ → σ.status t = .running .eTest →
    threads.callocOk t = false → Relation.ReflTransGen (condV threads).Move σ τ →
    τ.status t ≠ .running .eLinkFault ∧ τ.status t ≠ .running .eSignal ∧
      (τ.status t = .running .eUnlockCount → τ.shared.jobQueue = σ.shared.jobQueue ∧
        τ.shared.jobQueueCount = σ.shared.jobQueueCount)

variable {threads : ThreadList T}

/-! ## With memory -/

/-- While a thread ends its section, no other thread is between the change of the queue and the
change of the count. -/
theorem counted_of_memory (memory : ∀ t, threads.enqueues t = true → threads.callocOk t = true)
    {σ : Config T (State T) Point Mutex Gate} (h : (condV threads).Reachable σ) {t : T}
    (here : σ.status t = .running .eUnlockCount) :
    ∃ l, Segment σ.shared.jobs.cell Job.next σ.shared.jobQueue l none ∧
      σ.shared.jobQueueCount = l.length := by
  obtain ⟨l, tracked, account⟩ := reachable_accounted memory h
  have holding : holds .eUnlockCount .jobQueueMutex := by decide
  have outside : ¬ (stage .eUnlockCount).Critical := by simp [stage, Stage.Critical]
  have pushed := tally_critical_of_holds h here holding outside (q := .pushed)
    (by simp [Stage.Critical])
  have removed := tally_critical_of_holds h here holding outside (q := .removed)
    (by simp [Stage.Critical])
  exact ⟨l, tracked.segment, by omega⟩

/-! ## Without memory -/

section Fails
variable {t : T} {s : State T} {owner : Mutex → Option T}

/-- With an empty queue a thread without a job counts one and signals it. -/
theorem section_counts_nothing (h : (condV threads).Arrives t .eTest s owner)
    (empty : s.jobQueue = none) (noJob : s.newJob t = none) :
    (condV threads).Arrives t .eUnlockCount { s with jobQueueCount := s.jobQueueCount + 1 }
      owner := by
  have test : (condV threads).Arrives t .eSetHead s owner :=
    h.exec rfl (by simp [empty])
  have kept : setHead t s = s := by
    rw [setHead, noJob, ← empty]
  have head : (condV threads).Arrives t .eCount s owner :=
    test.exec rfl (List.mem_singleton.mpr (by rw [kept]))
  have count : (condV threads).Arrives t .eSignal
      { s with jobQueueCount := s.jobQueueCount + 1 } owner :=
    head.exec rfl (List.mem_singleton.mpr rfl)
  exact count.signal rfl

/-- With another queue it writes through the null pointer. -/
theorem section_faults (h : (condV threads).Arrives t .eTest s owner)
    (nonempty : s.jobQueue ≠ none) (noJob : s.newJob t = none) :
    (condV threads).Arrives t .eLinkFault s owner := by
  have test : (condV threads).Arrives t .eLink s owner :=
    h.exec rfl (by simp [nonempty])
  have fault : linkJob t s = .error .nullPointer := by
    rw [linkJob, noJob]
    rfl
  refine test.exec rfl ?_
  rw [fault]
  exact List.mem_singleton.mpr rfl

/-- A thread that runs alone comes to the test of its section without a job. -/
theorem arrives_without_job (enqueues : threads.enqueues t = true)
    (fails : threads.callocOk t = false) : ∃ s owner, (condV threads).Arrives t .eTest s owner ∧
      s.newJob t = none ∧ s.jobQueue = none := by
  have start : (condV threads).start t = .eCalloc := if_pos enqueues
  have first : (condV threads).Arrives t .eCalloc (initializeVars T) fun _ => none :=
    start ▸ arrives_start t
  have calloc : (condV threads).Arrives t .eLockQueue (callocJob t (initializeVars T) false)
      fun _ => none :=
    first.exec rfl (by simp [fails])
  have queue : (condV threads).Arrives t .eLockCount (callocJob t (initializeVars T) false)
      (Function.update (fun _ => none) .jobQueueMutex (some t)) :=
    calloc.lock rfl rfl
  exact ⟨_, _, queue.lock rfl (Function.update_of_ne (by decide) _ _),
    Function.update_self _ _ _, rfl⟩

end Fails

/-- The sections of the enqueue threads are sound in every run exactly if `calloc` returns a job
to each of the threads. -/
theorem soundSections_iff (threads : ThreadList T) :
    SoundSections threads ↔ ∀ t, threads.enqueues t = true → threads.callocOk t = true := by
  constructor
  · intro sound t enqueues
    by_contra fails
    rw [Bool.not_eq_true] at fails
    obtain ⟨s, owner, arrives, noJob, empty⟩ := arrives_without_job enqueues fails
    obtain ⟨σ, reached, here, shared, -⟩ := section_counts_nothing arrives empty noJob
    obtain ⟨l, segment, count⟩ := sound.counted σ t reached here
    rw [shared] at segment count
    cases l with
    | nil => cases count
    | cons a rest =>
        rw [empty] at segment
        cases segment.1
  · intro memory
    refine ⟨fun σ t h here => counted_of_memory memory h here, ?_⟩
    intro σ τ t h here fails
    -- only enqueue threads come to the section, and these have their memory
    have kind := reachable_enqueues h t
    rw [here] at kind
    rw [memory t kind.symm] at fails
    cases fails

/-- A dequeue thread, and then an enqueue thread without memory. -/
def noMemory : ThreadList Bool where
  enqueues t := t
  threadId := Bool.toNat
  callocOk _ := false

/-- The dequeue thread goes to sleep, and the enqueue thread wakes it. -/
def wakeForNothing : List (Bool × Nat) :=
  List.replicate 3 (false, 0) ++ List.replicate 7 (true, 0)

theorem noMemory_not_sound : ¬ SoundSections noMemory ∧
    ∃ σ, (condV noMemory).runSchedule (condV noMemory).initial wakeForNothing = some σ ∧
      σ.status true = .running .eUnlockCount ∧
      σ.status false = .woken .jobQueueCountMutex .dTest ∧
      σ.shared.jobQueueCount = 1 ∧ σ.shared.jobQueue = none := by
  refine ⟨fun sound => ?_, _, rfl, rfl, rfl, rfl, rfl⟩
  obtain ⟨l, segment, count⟩ := sound.counted _ true
    (Program.runSchedule_reachable (condV noMemory) wakeForNothing rfl) rfl
  cases l with
  | nil => cases count
  | cons a rest => cases segment.1

end SamplePrograms.JobQueue.CondV
