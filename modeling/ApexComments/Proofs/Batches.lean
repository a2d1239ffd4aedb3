import ApexComments.Command.Run
import ApexComments.Proofs.Grouping
import ApexComments.Proofs.Listings
import ApexComments.Proofs.Pool
import Mathlib.Data.List.Forall2
import Mathlib.Data.List.Induction

/-!
# Batches in any order

The results of a batch come in as the jobs end and are stored by path; a path that is given twice is stored
twice, with the same result. Whatever the order of the jobs, the results read back for the paths are those
of the files, one for each path in the order given (`extractAs_eq_ok`). None of the sources listed under a
directory lacks a payload, so what the command reports on a directory depends neither on the number of
workers nor on the order in which they are done (`run_eq_report`).
-/
namespace ApexComments

open Text

theorem OrderedMap.exists_get?_ofList {κ α : Type} [DecidableEq κ] {pairs : List (κ × α)} {key : κ}
    (known : key ∈ pairs.map Prod.fst) : ∃ value, (ofList pairs).get? key = some value ∧ (key, value) ∈ pairs := by
  have some := mt valuesOf_eq_nil_iff.mp (not_not_intro known)
  refine ⟨(valuesOf key pairs).getLast some, ?_, mem_valuesOf_iff.mp (List.getLast_mem some)⟩
  rw [get?_ofList, List.getLast?_eq_some_getLast some]

namespace Batch

variable {task : Extraction} {parser : Parser} {disk : Disk} {root : Path} {paths done : List Path}
  {payloads : List FilePayload}

/-- The payloads are those of the files, one for each path in order. -/
def Payloads (task : Extraction) (parser : Parser) (disk : Disk) (root : Path) (paths : List Path)
    (payloads : List FilePayload) : Prop :=
  List.Forall₂ (fun path payload => ∃ rows, task.ofFile parser disk root path = .ok ⟨payload, rows⟩) paths payloads

theorem exists_payloads (each : ∀ path ∈ paths, ∃ logged, task.ofFile parser disk root path = .ok logged) :
    ∃ payloads, Payloads task parser disk root paths payloads := by
  induction paths with
  | nil => exact ⟨[], .nil⟩
  | cons path rest ih =>
    obtain ⟨⟨payload, rows⟩, first⟩ := each path List.mem_cons_self
    obtain ⟨payloads, later⟩ := ih fun other member => each other (List.mem_cons_of_mem path member)
    exact ⟨payload :: payloads, .cons ⟨rows, first⟩ later⟩

theorem Payloads.unique {others : List FilePayload} (these : Payloads task parser disk root paths payloads)
    (those : Payloads task parser disk root paths others) : payloads = others := by
  refine List.right_unique_forall₂' ?_ these those
  rintro path payload other ⟨rows, first⟩ ⟨otherRows, second⟩
  rw [first] at second
  exact congrArg Logged.value (Except.ok.inj second)

theorem Payloads.exists_ofFile (these : Payloads task parser disk root paths payloads) :
    ∀ path ∈ paths, ∃ logged, task.ofFile parser disk root path = .ok logged := by
  induction these with
  | nil => simp
  | cons here later ih =>
    obtain ⟨rows, extracted⟩ := here
    exact List.forall_mem_cons.mpr ⟨⟨_, extracted⟩, ih⟩

/-! ## Jobs done in any order -/

theorem runAll_eq_ok {job : Path → Except ExtractionError (Logged FilePayload)}
    (each : ∀ path ∈ done, ∃ logged, job path = .ok logged) :
    ∃ results, runAll job done = .ok results ∧ results.value.map Prod.fst = done ∧
      ∀ path payload, (path, payload) ∈ results.value → ∃ rows, job path = .ok ⟨payload, rows⟩ := by
  induction done with
  | nil => exact ⟨.quiet [], rfl, rfl, by simp [Logged.quiet]⟩
  | cons path rest ih =>
    obtain ⟨⟨payload, rows⟩, first⟩ := each path List.mem_cons_self
    obtain ⟨results, ran, keys, stored⟩ := ih fun other member => each other (List.mem_cons_of_mem path member)
    refine ⟨⟨(path, payload) :: results.value, rows ++ results.rows⟩, ?_, ?_, ?_⟩
    · rw [runAll, first, ran]
      rfl
    · rw [List.map_cons, keys]
    · intro other value member
      rcases List.mem_cons.mp member with same | later
      · obtain ⟨rfl, rfl⟩ := Prod.mk.inj same
        exact ⟨rows, first⟩
      · exact stored other value later

theorem forall₂_inInputOrder {α : Type} {results : OrderedMap Path α} {relation : Path → α → Prop}
    (each : ∀ path ∈ paths, ∃ value, results.get? path = some value ∧ relation path value) :
    List.Forall₂ relation paths (inInputOrder paths results) := by
  induction paths with
  | nil => exact .nil
  | cons path rest ih =>
    obtain ⟨value, stored, related⟩ := each path List.mem_cons_self
    rw [inInputOrder, List.filterMap_cons, stored]
    exact .cons related (ih fun other member => each other (List.mem_cons_of_mem path member))

/-- Whatever the order in which the jobs are done, a batch gives the payloads of its files. -/
theorem extractAs_eq_ok (these : Payloads task parser disk root paths payloads) {workers : Int} (worker : 1 ≤ workers)
    (shown : Bool) (order : done.Perm paths) :
    ∃ rows bar, extractAs task parser disk root workers shown paths done = .ok (⟨payloads, rows⟩, bar) := by
  cases paths with
  | nil =>
    obtain rfl := List.forall₂_nil_left_iff.mp these
    exact ⟨[], [], rfl⟩
  | cons first rest =>
    obtain ⟨results, ran, keys, stored⟩ := runAll_eq_ok fun path member =>
      these.exists_ofFile path (order.mem_iff.mp member)
    have those : Payloads task parser disk root (first :: rest)
        (inInputOrder (first :: rest) (collect results.value)) := by
      refine forall₂_inInputOrder fun path member => ?_
      have known : path ∈ results.value.map Prod.fst := by rwa [keys, order.mem_iff]
      obtain ⟨payload, here, among⟩ := OrderedMap.exists_get?_ofList known
      exact ⟨payload, here, stored path payload among⟩
    obtain rfl := these.unique those
    rw [extractAs, if_neg (by simp), if_neg (by omega)]
    simp only [Bar.take, ran]
    exact ⟨results.rows, _, rfl⟩

end Batch

/-! ## The command -/

/-- The session with another number of workers asked for. -/
def Session.withWorkers (session : Session) (workers : Int) : Session :=
  { session with arguments := { session.arguments with parallelFiles := .value workers } }

theorem Session.start_withWorkers {found : Surroundings} {vars : Variables} {words others : List Text}
    {session : Session} {workers : Int} (started : start found vars words = .ok session)
    (asked : Arguments.parse (.ofVariables vars) others = .ok (session.withWorkers workers).arguments)
    (doneOrder : List Path → List Path) :
    start { found with doneOrder := doneOrder } vars others = .ok (session.withWorkers workers) := by
  rw [start] at started
  cases parsed : Arguments.parse (.ofVariables vars) words with
  | error refusal => simp [parsed] at started
  | ok arguments =>
    simp only [parsed] at started
    split at started
    · cases started
    · next disk sink log =>
      obtain rfl := Except.ok.inj started
      rw [start, asked]
      simp only [withWorkers, levelChoice] at log ⊢
      rw [log]

/-! ## What a log leaves of a disk -/

namespace Disk

theorem exists_root_of_append {disk later : Disk} {path : Path} {contents : ByteArray}
    (appended : disk.append path contents = .ok later) : ∃ root, later = { disk with root := root } := by
  rw [append, change] at appended
  split at appended
  · cases appended
  · split at appended
    · cases appended
    · cases appended
    · exact ⟨_, (Except.ok.inj appended).symm⟩
    · exact ⟨_, (Except.ok.inj appended).symm⟩

end Disk

theorem Console.exists_root_of_added (disk : Disk) (sink : LogSink) (written : Text) :
    ∃ root, added disk sink written = { disk with root := root } := by
  rw [added]
  split
  · next path bytes _ _ =>
    cases appended : disk.append path ⟨bytes.toArray⟩ with
    | error fault => exact ⟨disk.root, rfl⟩
    | ok later => exact Disk.exists_root_of_append appended
  · exact ⟨disk.root, rfl⟩

theorem Console.exists_root_of_emitRows (sink : LogSink) (stamp : Text) (console : Console) (rows : List LogRow) :
    ∃ root, (console.emitRows sink stamp rows).disk = { console.disk with root := root } := by
  induction rows generalizing console with
  | nil => exact ⟨console.disk.root, rfl⟩
  | cons row rows ih =>
    obtain ⟨root, later⟩ := ih (console.emit sink stamp row.severity.level row.message)
    have first : ∃ root, (console.emit sink stamp row.severity.level row.message).disk =
        { console.disk with root := root } := by
      rw [emit]
      split
      · exact exists_root_of_added console.disk sink _
      · exact ⟨console.disk.root, rfl⟩
    obtain ⟨earlier, same⟩ := first
    refine ⟨root, ?_⟩
    rw [same] at later
    exact later

/-- A log changes files, and nothing of what the system grants. -/
theorem Session.openAs_log (session : Session) (rows : List LogRow) {disk : Disk}
    (granted : session.console.disk.OpenAs disk) : (session.log rows).console.disk.OpenAs disk := by
  obtain ⟨root, later⟩ := Console.exists_root_of_emitRows session.sink session.stamp session.console rows
  rw [log]
  simp only [later]
  exact granted

namespace Command

variable {found : Surroundings} {vars : Variables} {session : Session} {entries : List (Text × FileTree)}
  {listed : List Path} {rows : List LogRow} {payloads : List FilePayload}

theorem extractListed_eq_ok {paths : List Path} (workers : Int) (order : (found.doneOrder paths).Perm paths)
    (these : Batch.Payloads ⟨session.arguments.addressOnly, session.arguments.everyParam⟩ found.parser
      session.console.disk session.root paths payloads) :
    ∃ rows bar, extractListed found vars session workers paths = .ok (.payloads (session.log rows) payloads bar) := by
  obtain ⟨rows, bar, extracted⟩ := Batch.extractAs_eq_ok these (Int.le_max_left 1 workers)
    (Bar.isShown (if session.arguments.noProgress then some true else none) (vars.value "APEXDOC_PROGRESS")
      found.terminal) order
  exact ⟨rows, bar, by simp only [extractListed, extracted]⟩

theorem extractIn_eq_ok (directory : session.console.disk.find session.root = .ok (.directory entries))
    (listing : Listing.sources found.room session.console.disk session.root = ⟨.ok listed, rows⟩)
    {workers : Int} (asked : session.arguments.parallelFiles = .value workers)
    (order : (found.doneOrder listed).Perm listed)
    (these : Batch.Payloads ⟨session.arguments.addressOnly, session.arguments.everyParam⟩ found.parser
      ((session.log rows).logFound listed).console.disk session.root listed payloads) :
    ∃ more bar, extractIn found vars session =
      .ok (.payloads (((session.log rows).logFound listed).log more) payloads bar) := by
  have there : session.console.disk.has session.root = .ok true := by rw [Disk.has, Disk.ask, directory]
  have kept : ((session.log rows).logFound listed).arguments.parallelFiles = .value workers := asked
  simp only [extractIn, there, extractAll, listing, kept]
  exact extractListed_eq_ok workers order these

/-- Whatever the number of workers and the order in which they are done, the command reports the payloads
of the sources that it lists. -/
theorem run_eq_report {words : List Text} (loaded : found.vars.load found.disk = .ok vars)
    (started : Session.start found vars words = .ok session)
    (directory : session.console.disk.find session.root = .ok (.directory entries))
    (listing : Listing.sources found.room session.console.disk session.root = ⟨.ok listed, rows⟩)
    (these : Batch.Payloads ⟨session.arguments.addressOnly, session.arguments.everyParam⟩ found.parser
      ((session.log rows).logFound listed).console.disk session.root listed payloads)
    {others : List Text} {workers : Int}
    (asked : Arguments.parse (.ofVariables vars) others = .ok (session.withWorkers workers).arguments)
    {doneOrder : List Path → List Path} (order : (doneOrder listed).Perm listed) (elapsed : Text) :
    ∃ later bar, later.arguments = (session.withWorkers workers).arguments ∧
      run { found with doneOrder := doneOrder } elapsed others = report elapsed (.payloads later payloads bar) := by
  obtain ⟨more, bar, extracted⟩ : ∃ more bar, extractIn { found with doneOrder := doneOrder } vars
      (session.withWorkers workers) =
        .ok (.payloads ((((session.withWorkers workers).log rows).logFound listed).log more) payloads bar) :=
    extractIn_eq_ok directory listing rfl order these
  have restarted := Session.start_withWorkers started asked doneOrder
  refine ⟨(((session.withWorkers workers).log rows).logFound listed).log more, bar, rfl, ?_⟩
  simp only [run, extract, loaded, restarted, extracted]

/-- Without a file for it, a report is what is printed; what cannot be printed is not reported. -/
theorem report_of_printed {later : Session} (unwritten : Session.fileName later.arguments.out = []) (elapsed : Text)
    (payloads : List FilePayload) (bar : List BarEvent) :
    (∀ printed, Report.printed (Report.ofPayloads payloads) = .ok printed →
      ∃ result, report elapsed (.payloads later payloads bar) = .ok result ∧ result.code = 0 ∧
        result.stdout = printed) ∧
    ∀ fault, Report.printed (Report.ofPayloads payloads) = .error fault →
      report elapsed (.payloads later payloads bar) = .error (.output (.document fault)) := by
  have unnamed : Session.fileName (later.log [summary elapsed payloads]).arguments.out = [] := unwritten
  constructor
  · intro printed printing
    simp only [report, unnamed, printing]
    exact ⟨_, rfl, rfl, rfl⟩
  · intro fault failed
    simp only [report, unnamed, failed]
    rfl

/-- Batches, and with them reports on directories, do not depend on the order in which jobs are done.

Where each file has a payload, a batch gives these payloads, one for each path in the order given, with any
number of workers and however the jobs end; with a worker at all, they may end in any order, and they do
end. The sources listed under a directory come in the order of their paths, and each has a payload, also
where the disk has changed since and the system refuses no more than it did. So command lines that differ in the number
of workers only report, and print, the same payloads of a directory: those of the sources listed. -/
theorem run_order_independent :
    (∀ (task : Extraction) (parser : Parser) (disk : Disk) (root : Path) (paths : List Path),
      (∀ path ∈ paths, ∃ logged, task.ofFile parser disk root path = .ok logged) →
      ∃ payloads, Batch.Payloads task parser disk root paths payloads ∧
        ∀ (workers : Int) (shown : Bool) (done : List Path), 1 ≤ workers → done.Perm paths →
          ∃ rows bar, Batch.extractAs task parser disk root workers shown paths done = .ok (⟨payloads, rows⟩, bar)) ∧
    (∀ (workers : Int) (paths done : List Path), 1 ≤ workers →
      (Pool.Delivers workers paths done ↔ done.Perm paths) ∧
      ∀ pool : Pool Path, ∃ all, Pool.Reaches workers pool (.emptied all)) ∧
    (∀ (room : Nat) (disk : Disk) (root : Path) (entries : List (Text × FileTree)) (listed : List Path),
      disk.find root = .ok (.directory entries) → (Listing.sources room disk root).value = .ok listed →
      listed.Pairwise (fun path later => path.components ≤ later.components) ∧
      ∀ path ∈ listed, ∀ (task : Extraction) (parser : Parser) (later : Disk), later.OpenAs disk →
        ∃ logged, task.ofFile parser later root path = .ok logged) ∧
    (∀ (found : Surroundings) (vars : Variables) (words : List Text) (session : Session)
        (entries : List (Text × FileTree)) (listed : List Path) (rows : List LogRow),
      found.vars.load found.disk = .ok vars → Session.start found vars words = .ok session →
      session.console.disk.find session.root = .ok (.directory entries) →
      Listing.sources found.room session.console.disk session.root = ⟨.ok listed, rows⟩ →
      ∃ payloads, Batch.Payloads ⟨session.arguments.addressOnly, session.arguments.everyParam⟩ found.parser
          ((session.log rows).logFound listed).console.disk session.root listed payloads ∧
        ∀ (others : List Text) (workers : Int) (doneOrder : List Path → List Path) (elapsed : Text),
          Arguments.parse (.ofVariables vars) others = .ok (session.withWorkers workers).arguments →
          (doneOrder listed).Perm listed →
          (∃ later bar, later.arguments = (session.withWorkers workers).arguments ∧
            run { found with doneOrder := doneOrder } elapsed others =
              report elapsed (.payloads later payloads bar)) ∧
          (Session.fileName session.arguments.out = [] →
            (∀ printed, Report.printed (Report.ofPayloads payloads) = .ok printed →
              ∃ result, run { found with doneOrder := doneOrder } elapsed others = .ok result ∧ result.code = 0 ∧
                result.stdout = printed) ∧
            ∀ fault, Report.printed (Report.ofPayloads payloads) = .error fault →
              run { found with doneOrder := doneOrder } elapsed others = .error (.output (.document fault)))) := by
  refine ⟨?_, ?_, ?_, ?_⟩
  · intro task parser disk root paths each
    obtain ⟨payloads, these⟩ := Batch.exists_payloads each
    exact ⟨payloads, these, fun workers shown done worker order => Batch.extractAs_eq_ok these worker shown order⟩
  · intro workers paths done worker
    exact ⟨Pool.delivers_iff_perm worker, Pool.exists_end worker⟩
  · intro room disk root entries listed directory listing
    exact ⟨Listing.pairwise_sources directory listing, fun path member task parser later granted =>
      Listing.exists_ofFile_of_mem_sources directory listing member (granted.exists_isFile directory) task parser⟩
  · intro found vars words session entries listed rows loaded started directory listing
    have granted : ((session.log rows).logFound listed).console.disk.OpenAs session.console.disk :=
      Session.openAs_log _ _ (Session.openAs_log session rows (.refl session.console.disk))
    obtain ⟨payloads, these⟩ := Batch.exists_payloads fun path member =>
      Listing.exists_ofFile_of_mem_sources directory (congrArg Logged.value listing) member
        (granted.exists_isFile directory) ⟨session.arguments.addressOnly, session.arguments.everyParam⟩ found.parser
    refine ⟨payloads, these, ?_⟩
    intro others workers doneOrder elapsed asked order
    obtain ⟨later, bar, same, reported⟩ := run_eq_report loaded started directory listing these asked order elapsed
    refine ⟨⟨later, bar, same, reported⟩, fun unwritten => ?_⟩
    rw [reported]
    exact report_of_printed (by rw [same]; exact unwritten) elapsed payloads bar

private def twoFilesEntries : List (Text × FileTree) :=
  [("a.cls", .file .empty), ("b.cls", .file .empty)]

private def twoFiles : Disk := .free (.directory twoFilesEntries) []

private def sourcePath (name : Char) : Path := ⟨false, [CodePoint.char name :: (".cls" : Text)]⟩

private def twoFilesFound : Surroundings where
  disk := twoFiles
  vars := []
  terminal := false
  parser := fun _ => .ok (.node (Trivia.leaf "program" 0 0) [])
  room := 990
  stamp := []

private def twoFilesSession : Session where
  arguments := .ofSettings (.ofVariables []) "."
  sink := ⟨20, none⟩
  stamp := []
  console := .fresh twoFiles

private theorem start_twoFiles : Session.start twoFilesFound [] ["."] = .ok twoFilesSession := by
  have parsed : Arguments.parse (.ofVariables []) ["."] = .ok (.ofSettings (.ofVariables []) ".") := by
    decide +kernel
  have level : LogLevel.ofChoice (Session.levelChoice (.ofSettings (.ofVariables []) ".")) = .ok 20 := by
    decide +kernel
  rw [Session.start, parsed]
  simp only [LogSink.setUp, level]
  rfl

private theorem find_twoFiles : twoFiles.find (.ofText ".") = .ok (.directory twoFilesEntries) := rfl

private theorem sources_twoFiles :
    Listing.sources 990 twoFiles (.ofText ".") = ⟨.ok [sourcePath 'a', sourcePath 'b'], []⟩ := by
  have searched : Listing.search twoFiles (.ofText ".") 990 [] = .ok [["a.cls"], ["b.cls"]] := rfl
  rw [Listing.sources_of_sorted find_twoFiles searched (.refl _) (by decide)]
  rfl

private def nothingIn (name : Char) : FilePayload := .minimal (CodePoint.char name :: (".cls" : Text))

private theorem ofFile_twoFiles {name : Char} (either : name = 'a' ∨ name = 'b') : ∃ rows,
    Extraction.ofFile ⟨false, false⟩ twoFilesFound.parser twoFiles ⟨false, []⟩ (sourcePath name) =
      .ok ⟨nothingIn name, rows⟩ := by
  have value : (Extraction.ofFile ⟨false, false⟩ twoFilesFound.parser twoFiles ⟨false, []⟩
      (sourcePath name)).toOption.map Logged.value = some (nothingIn name) := by
    rcases either with rfl | rfl <;> decide +kernel
  cases extracted : Extraction.ofFile ⟨false, false⟩ twoFilesFound.parser twoFiles ⟨false, []⟩ (sourcePath name) with
  | error fault => simp [extracted, Except.toOption] at value
  | ok logged =>
    have same : logged.value = nothingIn name := by simpa [extracted, Except.toOption] using value
    exact ⟨logged.rows, by rw [← same]⟩

/-- Three jobs for two files, done in another order than they are given; and the same report from one worker
that ends with the first source as from seven that end with the last. -/
theorem run_order_independent_two_files :
    (∃ payloads rows bar,
      Batch.extractAs ⟨false, false⟩ twoFilesFound.parser twoFiles ⟨false, []⟩ 2 true
        [sourcePath 'b', sourcePath 'a', sourcePath 'b'] [sourcePath 'a', sourcePath 'b', sourcePath 'b'] =
          .ok (⟨payloads, rows⟩, bar) ∧
      payloads.map FilePayload.path = (["b.cls", "a.cls", "b.cls"] : List Text)) ∧
    ∃ result other,
      run { twoFilesFound with doneOrder := List.reverse } [] [".", "--parallel-files=1"] = .ok result ∧
      run twoFilesFound [] [".", "--parallel-files=7"] = .ok other ∧ result.stdout = other.stdout := by
  obtain ⟨batch, -, -, command⟩ := run_order_independent
  obtain ⟨rowsA, first⟩ := ofFile_twoFiles (.inl rfl)
  obtain ⟨rowsB, second⟩ := ofFile_twoFiles (.inr rfl)
  constructor
  · obtain ⟨payloads, these, inAnyOrder⟩ := batch ⟨false, false⟩ twoFilesFound.parser twoFiles ⟨false, []⟩
      [sourcePath 'b', sourcePath 'a', sourcePath 'b']
      (List.forall_mem_cons.mpr ⟨⟨_, second⟩, List.forall_mem_cons.mpr ⟨⟨_, first⟩, List.forall_mem_cons.mpr
        ⟨⟨_, second⟩, by simp⟩⟩⟩)
    obtain ⟨rows, bar, extracted⟩ := inAnyOrder 2 true [sourcePath 'a', sourcePath 'b', sourcePath 'b'] (by decide)
      (by decide)
    obtain rfl := these.unique (.cons ⟨_, second⟩ (.cons ⟨_, first⟩ (.cons ⟨_, second⟩ .nil)))
    exact ⟨_, rows, bar, extracted, by decide⟩
  · obtain ⟨payloads, these, inAnyOrder⟩ := command twoFilesFound [] ["."] twoFilesSession twoFilesEntries
      [sourcePath 'a', sourcePath 'b'] [] rfl start_twoFiles find_twoFiles sources_twoFiles
    obtain rfl := these.unique (.cons ⟨_, first⟩ (.cons ⟨_, second⟩ .nil))
    obtain ⟨text, printing⟩ : ∃ text, Report.printed (Report.ofPayloads [nothingIn 'a', nothingIn 'b']) = .ok text := by
      have printable : (Report.printed (Report.ofPayloads [nothingIn 'a', nothingIn 'b'])).isOk = true := by
        decide +kernel
      cases printing : Report.printed (Report.ofPayloads [nothingIn 'a', nothingIn 'b']) with
      | ok text => exact ⟨text, rfl⟩
      | error fault => simp [printing, Except.isOk, Except.toBool] at printable
    obtain ⟨result, ran, -, printed⟩ := ((inAnyOrder [".", "--parallel-files=1"] 1 List.reverse []
      (by decide +kernel) (List.reverse_perm _)).2 rfl).1 text printing
    obtain ⟨other, alsoRan, -, alsoPrinted⟩ := ((inAnyOrder [".", "--parallel-files=7"] 7 id []
      (by decide +kernel) (.refl _)).2 rfl).1 text printing
    exact ⟨result, other, ran, alsoRan, printed.trans alsoPrinted.symm⟩

end Command

end ApexComments
