import Mathlib.Algebra.Order.Group.Multiset
import Mathlib.Logic.Relation

/-!
# Pools of workers

Jobs are submitted to a pool in order. As long as a worker is free the next job is started; jobs under way
end in any order, and the results of jobs that have ended are taken in any order. No step loses a job or
makes one up, so the results taken in the end are those of all jobs, each once (`perm_of_delivers`); with
a worker at all, every order can come about (`delivers_iff_perm`) and no pool gets stuck (`exists_end`).
-/
namespace ApexComments

/-- The jobs of a pool by how far they have come: waiting in the order of their submission, under way,
ended, and with their results taken, in the order of the taking. -/
structure Pool (α : Type) where
  waiting : List α
  running : List α
  ended : List α
  taken : List α

namespace Pool

variable {α : Type} {workers : Int} {pool next last : Pool α} {submission done : List α}

/-- All jobs are submitted and none is started. -/
def submitted (submission : List α) : Pool α := ⟨submission, [], [], []⟩

/-- The results of all jobs are taken. -/
def emptied (done : List α) : Pool α := ⟨[], [], [], done⟩

/-- What may happen next in a pool with so many workers. -/
inductive Step (workers : Int) : Pool α → Pool α → Prop
  | start {job : α} {waiting running ended taken : List α} (free : running.length < workers) :
    Step workers ⟨job :: waiting, running, ended, taken⟩ ⟨waiting, job :: running, ended, taken⟩
  | finish (before after : List α) {job : α} {waiting ended taken : List α} :
    Step workers ⟨waiting, before ++ job :: after, ended, taken⟩ ⟨waiting, before ++ after, job :: ended, taken⟩
  | take (before after : List α) {job : α} {waiting running taken : List α} :
    Step workers ⟨waiting, running, before ++ job :: after, taken⟩ ⟨waiting, running, before ++ after, taken ++ [job]⟩

/-- A pool comes to another in some steps. -/
def Reaches (workers : Int) : Pool α → Pool α → Prop := Relation.ReflTransGen (Step workers)

/-- The pool may take the results of the jobs in this order. -/
def Delivers (workers : Int) (submission done : List α) : Prop :=
  Reaches workers (submitted submission) (emptied done)

/-- All jobs of the pool. -/
def jobs (pool : Pool α) : Multiset α := pool.waiting + pool.running + pool.ended + pool.taken

/-- The number of steps that the jobs of the pool have before them. -/
def remaining (pool : Pool α) : Nat := 3 * pool.waiting.length + 2 * pool.running.length + pool.ended.length

/-! ## No job is lost -/

theorem Step.jobs_eq (step : pool.Step workers next) : next.jobs = pool.jobs := by
  cases step with
  | start free => simp [jobs, ← Multiset.cons_coe]
  | finish before after => simp [jobs, ← Multiset.cons_coe, ← Multiset.coe_add]
  | take before after =>
    simp only [jobs, ← Multiset.cons_coe, ← Multiset.coe_add, Multiset.coe_nil, ← Multiset.singleton_add]
    ac_rfl

theorem Reaches.jobs_eq (run : Reaches workers pool last) : last.jobs = pool.jobs := by
  induction run with
  | refl => rfl
  | tail before step ih => exact step.jobs_eq.trans ih

/-- The results are those of all jobs, each taken once. -/
theorem perm_of_delivers (delivery : Delivers workers submission done) : done.Perm submission := by
  have same := Reaches.jobs_eq delivery
  simpa [jobs, submitted, emptied] using same

/-! ## Every order comes about -/

theorem reaches_ended (worker : 1 ≤ workers) (waiting ended : List α) :
    Reaches workers ⟨waiting, [], ended, []⟩ ⟨[], [], waiting.reverse ++ ended, []⟩ := by
  induction waiting generalizing ended with
  | nil => exact .refl
  | cons job waiting ih =>
    have started : Step workers ⟨job :: waiting, [], ended, []⟩ ⟨waiting, [job], ended, []⟩ :=
      .start (by rw [List.length_nil]; omega)
    have finished : Step workers ⟨waiting, [job], ended, []⟩ ⟨waiting, [], job :: ended, []⟩ :=
      .finish [] []
    rw [List.reverse_cons, List.append_assoc, List.singleton_append]
    exact .head started (.head finished (ih (job :: ended)))

theorem reaches_emptied {ended : List α} (order : done.Perm ended) (taken : List α) :
    Reaches workers ⟨[], [], ended, taken⟩ (emptied (taken ++ done)) := by
  induction done generalizing ended taken with
  | nil =>
    obtain rfl := List.nil_perm.mp order
    rw [List.append_nil]
    exact .refl
  | cons job done ih =>
    obtain ⟨before, after, rfl⟩ := List.append_of_mem (order.mem_iff.mp List.mem_cons_self)
    have rest : done.Perm (before ++ after) := (order.trans List.perm_middle).cons_inv
    have onward := ih rest (taken ++ [job])
    rw [List.append_assoc, List.singleton_append] at onward
    exact .head (.take before after) onward

/-- A pool with a worker may take the results in any order, and in no order but those of all jobs. -/
theorem delivers_iff_perm (worker : 1 ≤ workers) : Delivers workers submission done ↔ done.Perm submission := by
  constructor
  · exact perm_of_delivers
  · intro order
    have ended := reaches_ended worker submission []
    rw [List.append_nil] at ended
    exact ended.trans (reaches_emptied (order.trans (List.reverse_perm submission).symm) [])

/-! ## No pool gets stuck -/

theorem Step.remaining_lt (step : pool.Step workers next) : next.remaining < pool.remaining := by
  cases step with
  | start free =>
    simp only [remaining, List.length_cons]
    omega
  | finish before after =>
    simp only [remaining, List.length_cons, List.length_append]
    omega
  | take before after =>
    simp only [remaining, List.length_cons, List.length_append]
    omega

theorem exists_step (worker : 1 ≤ workers) (pool : Pool α) :
    (∃ next, pool.Step workers next) ∨ ∃ done, pool = emptied done := by
  obtain ⟨waiting, running, ended, taken⟩ := pool
  match waiting, running, ended with
  | _, _, job :: ended => exact .inl ⟨_, .take [] ended⟩
  | _, job :: running, [] => exact .inl ⟨_, .finish [] running⟩
  | job :: waiting, [], [] => exact .inl ⟨_, .start (by rw [List.length_nil]; omega)⟩
  | [], [], [] => exact .inr ⟨taken, rfl⟩

/-- With a worker, whatever happened so far, the results of all jobs are taken in the end: no more steps can
follow than jobs have before them, and until then there is one. -/
theorem exists_end (worker : 1 ≤ workers) (pool : Pool α) : ∃ done, Reaches workers pool (emptied done) := by
  rcases exists_step worker pool with ⟨next, step⟩ | ⟨done, rfl⟩
  · have fewer := step.remaining_lt
    obtain ⟨done, onward⟩ := exists_end worker next
    exact ⟨done, .head step onward⟩
  · exact ⟨done, .refl⟩
termination_by pool.remaining

end Pool

end ApexComments
