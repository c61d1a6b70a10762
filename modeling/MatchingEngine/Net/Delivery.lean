import Mathlib
import MatchingEngine.BaselineTest
import MatchingEngine.Net.Server
import MatchingEngine.Trade.Compaction

/-!
# From the files of the days to the files of the results

The two machines together.  On the one the loader and the matching threads run, and every
matching thread sends its report of each day to the other, where all these uploads are received at
any time and in any order.  The file of a session and a day is named by both, so no two uploads
write to one file, and if the fields of every upload arrive whole the server comes to hold the
rows of every report and nothing else.

## Main definitions

* `Report.upload` — the bytes that a report is sent as.
* `resultName` — the name of the files of a day and a session.
* `WholeFields` — the fields of an upload arrive whole.
* `delivered` — under fair schedules of both machines every report comes to be in its files.
-/

namespace MatchingEngine

open ByteStream LittleEndian

/-! ## Names -/

/-- The bytes of a string. -/
def nameBytes (s : String) : List UInt8 := s.toUTF8.data.toList

theorem nameBytes_append (s t : String) : nameBytes (s ++ t) = nameBytes s ++ nameBytes t := by
  simp only [nameBytes, String.toUTF8_eq_toByteArray, String.toByteArray_append,
    ByteArray.toList_data_append]

/-- What the name of a report has after the date. -/
def sessionSuffix (session : ℤ × ℤ) : String :=
  "_" ++ (toString session.1 ++ ("_" ++ toString session.2))

theorem sessionSuffix_spec (id : Fin workerThreadNum) :
    (nameBytes (sessionSuffix (sessionOf id))).length = 4 ∧
      0 ∉ nameBytes (sessionSuffix (sessionOf id)) := by
  revert id
  decide +kernel

theorem sessionSuffix_injective {id id' : Fin workerThreadNum}
    (h : nameBytes (sessionSuffix (sessionOf id)) = nameBytes (sessionSuffix (sessionOf id'))) :
    id = id' := by
  revert id id'
  decide +kernel

/-- The date of a day is eight characters, none of them zero. -/
structure DayFiles.Dated (day : DayFiles) : Prop where
  length_eq : (nameBytes (dateName day.path)).length = dateLength
  zero_notMem : 0 ∉ nameBytes (dateName day.path)

/-- The name of the files of a day and a session. -/
def resultName {day : DayFiles} (hday : day.Dated) (id : Fin workerThreadNum) : FileName where
  chars := nameBytes (dateName day.path) ++ nameBytes (sessionSuffix (sessionOf id))
  length_eq := by
    rw [List.length_append, hday.length_eq, (sessionSuffix_spec id).1]
    rfl
  zero_notMem := by
    rw [List.mem_append, not_or]
    exact ⟨hday.zero_notMem, (sessionSuffix_spec id).2⟩

/-- The names of two reports are different. -/
theorem resultName_injective {day day' : DayFiles} (hday : day.Dated) (hday' : day'.Dated)
    {id id' : Fin workerThreadNum}
    (h : (resultName hday id).chars = (resultName hday' id').chars) :
    nameBytes (dateName day.path) = nameBytes (dateName day'.path) ∧ id = id' := by
  obtain ⟨hdate, hsuffix⟩ :=
    List.append_inj h (hday.length_eq.trans hday'.length_eq.symm)
  exact ⟨hdate, sessionSuffix_injective hsuffix⟩

theorem nameBytes_injective {s t : String} (h : nameBytes s = nameBytes t) : s = t := by
  rw [nameBytes, nameBytes] at h
  exact String.toByteArray_inj.mp (ByteArray.ext (Array.toList_inj.mp h))

/-! ## The name of a report -/

namespace TradeEngine

theorem session_apply {t u : TradeEngine} {call : Call} (h : t.apply call = some u) :
    u.session = t.session := by
  cases call with
  | initContract instrument prevClosePrice prevPosition =>
    rw [apply, initContract] at h
    obtain ⟨-, -, -, -, hsession, -⟩ := serve_eq_some h
    exact hsession
  | insertAlpha instrument timestamp targetVolume =>
    obtain ⟨-, -, -, -, hsession, -⟩ := serve_eq_some h
    exact hsession
  | insertOrderLog instrument timestamp type direction volume priceOff =>
    obtain ⟨-, -, -, -, hsession, -⟩ := serve_eq_some h
    exact hsession

theorem session_run {calls : List Call} {t u : TradeEngine} (h : t.run calls = some u) :
    u.session = t.session := by
  induction calls generalizing t with
  | nil => rw [Option.some.inj h]
  | cons call calls ih =>
    obtain ⟨v, hv, hrest⟩ := Option.bind_eq_some_iff.mp h
    exact (ih hrest).trans (session_apply hv)

theorem session_completeContract {t u : TradeEngine} {i : ℕ} (h : t.completeContract i = some u) :
    u.session = t.session := by
  rw [completeContract] at h
  split at h
  · obtain ⟨e, -, rfl⟩ := Option.map_eq_some_iff.mp h
    rfl
  · cases h

theorem session_completeContracts {t u : TradeEngine} (h : t.completeContracts = some u) :
    u.session = t.session := by
  rw [completeContracts] at h
  generalize List.range t.lastContract = indices at h
  induction indices generalizing t with
  | nil => rw [Option.some.inj h]
  | cons i indices ih =>
    obtain ⟨v, hv, hrest⟩ := Option.bind_eq_some_iff.mp h
    exact (ih hrest).trans (session_completeContract hv)

end TradeEngine

/-- **The name of a report** is the date and the session. -/
theorem nameBytes_report {day : DayFiles} (hday : day.Dated) {id : Fin workerThreadNum}
    {report : Report} (h : day.report (sessionOf id) = some report) :
    nameBytes report.fileName = (resultName hday id).chars := by
  obtain ⟨calls, -, h⟩ := Option.bind_eq_some_iff.mp h
  obtain ⟨t, hrun, h⟩ := Option.bind_eq_some_iff.mp h
  obtain ⟨⟨v, report'⟩, hcomplete, rfl⟩ := Option.map_eq_some_iff.mp h
  simp only [TradeEngine.onComplete, Option.bind_eq_some_iff, Option.map_eq_some_iff] at hcomplete
  obtain ⟨u, hu, twapOrders, -, pnlAndPos, -, heq⟩ := hcomplete
  have hsession : u.session = sessionOf id :=
    (TradeEngine.session_completeContracts hu).trans (TradeEngine.session_run hrun)
  obtain ⟨rfl, rfl⟩ := Prod.mk.inj heq
  simp only [resultName, sessionSuffix, hsession, nameBytes_append, List.append_assoc]

/-! ## The upload -/

/-- The bytes of a row. -/
def TwapOrder.memory (o : TwapOrder) : Vector UInt8 twapOrderSize :=
  ⟨(twapOrderLayout.store o).toArray, twapOrderLayout.length_store o⟩

def PnlAndPos.memory (p : PnlAndPos) : Vector UInt8 pnlAndPosSize :=
  ⟨(pnlAndPosLayout.store p).toArray, pnlAndPosLayout.length_store p⟩

theorem data_twapOrders (rows : List TwapOrder) :
    data (rows.map TwapOrder.memory) = twapOrderLayout.storeAll rows := by
  rw [data, List.flatMap_map]
  rfl

theorem data_pnlAndPos (rows : List PnlAndPos) :
    data (rows.map PnlAndPos.memory) = pnlAndPosLayout.storeAll rows := by
  rw [data, List.flatMap_map]
  rfl

namespace Report

/-- What the client sends of a report. -/
def upload (r : Report) : List UInt8 :=
  sentResult (nameBytes r.fileName) (r.twapOrders.map TwapOrder.memory)
    (r.pnlAndPos.map PnlAndPos.memory)

/-- The lengths of the vectors are lengths in memory. -/
structure Fits (r : Report) : Prop where
  twapOrders : 2 * (r.twapOrders.length * twapOrderSize) < 256 ^ longSize
  pnlAndPos : 2 * (r.pnlAndPos.length * pnlAndPosSize) < 256 ^ longSize

/-- The paths of the files of a report. -/
def twapPath (r : Report) : List UInt8 := twapDirPath ++ nameBytes r.fileName

def pnlPath (r : Report) : List UInt8 := pnlDirPath ++ nameBytes r.fileName

end Report

/-- What has arrived at the `recv` of the name and at those of the two lengths is enough for
them. -/
structure WholeFields (seg : Segmentation) (r : Report) : Prop where
  name : nameLength ≤ seg.arrived 0
  twapSize : longSize ≤ seg.arrived nameLength
  pnlSize : longSize ≤
    seg.arrived (nameLength + longSize + (twapOrderLayout.storeAll r.twapOrders).length)

/-- **The server writes an upload whose fields arrive whole**, whatever its memory held. -/
theorem handleClient_upload {seg : Segmentation} {r : Report} (hwhole : WholeFields seg r)
    (hfits : r.Fits) {name : FileName} (hname : nameBytes r.fileName = name.chars)
    (memory : Memory) :
    handleClient seg memory r.upload =
      [⟨r.twapPath, twapOrderLayout.storeAll r.twapOrders⟩,
        ⟨r.pnlPath, pnlAndPosLayout.storeAll r.pnlAndPos⟩] := by
  have htwaps : 2 * (data (r.twapOrders.map TwapOrder.memory)).length < 256 ^ longSize := by
    rw [length_data, List.length_map]
    exact hfits.twapOrders
  have hpnls : 2 * (data (r.pnlAndPos.map PnlAndPos.memory)).length < 256 ^ longSize := by
    rw [length_data, List.length_map]
    exact hfits.pnlAndPos
  have harrived : longSize ≤ pnlDataSizeArrived seg (r.twapOrders.map TwapOrder.memory) := by
    rw [pnlDataSizeArrived, data_twapOrders]
    exact hwhole.pnlSize
  have hsize : pnlDataSize (r.twapOrders.map TwapOrder.memory) (r.pnlAndPos.map PnlAndPos.memory)
      (pnlDataSizeArrived seg (r.twapOrders.map TwapOrder.memory)) =
        bytes longSize (data (r.pnlAndPos.map PnlAndPos.memory)).length := by
    rw [pnlDataSize, List.take_of_length_le (by rwa [length_bytes]),
      List.drop_of_length_le (by rwa [length_bytes]), List.append_nil]
  rw [Report.upload, hname, handleClient_of_whole memory htwaps hwhole.name hwhole.twapSize, hsize,
    signed_bytes hpnls, Int.toNat_natCast, afterPnlDataSize,
    List.drop_of_length_le (by rwa [length_bytes]), List.nil_append, List.take_length,
    data_twapOrders, data_pnlAndPos, Report.twapPath, Report.pnlPath, hname]

/-- The handler of an upload. -/
def uploadClient (seg : Segmentation) (memory : Memory) (r : Report) : Client :=
  ⟨seg, memory, r.upload⟩

theorem name_uploadClient {seg : Segmentation} (hseg : nameLength ≤ seg.arrived 0)
    (memory : Memory) {r : Report} {name : FileName} (hname : nameBytes r.fileName = name.chars) :
    (uploadClient seg memory r).name = nameBytes r.fileName := by
  rw [Client.name, uploadClient, Report.upload, hname, recv_name,
    List.take_of_length_le (name.length_eq.trans_le hseg), memory.fileName_of_whole]

/-- The files of an upload are those of its report. -/
theorem mem_paths_uploadClient {seg : Segmentation} (hseg : nameLength ≤ seg.arrived 0)
    (memory : Memory) {r : Report} {name : FileName} (hname : nameBytes r.fileName = name.chars)
    (path : List UInt8) :
    path ∈ (uploadClient seg memory r).paths ↔ path = r.twapPath ∨ path = r.pnlPath := by
  rw [Client.paths, name_uploadClient hseg memory hname, Set.mem_range]
  constructor
  · rintro ⟨dir, rfl⟩
    cases dir with
    | twap => exact .inl rfl
    | pnl => exact .inr rfl
  · rintro (rfl | rfl)
    · exact ⟨.twap, rfl⟩
    · exact ⟨.pnl, rfl⟩

theorem twapPath_ne_pnlPath (r : Report) : r.twapPath ≠ r.pnlPath := by
  intro h
  have hdirs : OutputDir.twap.path ++ nameBytes r.fileName =
      OutputDir.pnl.path ++ nameBytes r.fileName := h
  exact OutputDir.noConfusion (OutputDir.eq_of_path hdirs)

/-- The files after an upload. -/
theorem writeAll_upload (files : Files) (r : Report) (twaps pnls : List UInt8) :
    files.writeAll [⟨r.twapPath, twaps⟩, ⟨r.pnlPath, pnls⟩] r.twapPath = some twaps ∧
      files.writeAll [⟨r.twapPath, twaps⟩, ⟨r.pnlPath, pnls⟩] r.pnlPath = some pnls := by
  simp only [Files.writeAll, List.foldl_cons, List.foldl_nil]
  exact ⟨(Files.write_of_ne _ _ (twapPath_ne_pnlPath r)).trans (Files.write_self ..),
    Files.write_self ..⟩

/-! ## The two machines -/

/-- A report of every session and every day. -/
abbrev Reports (days : List DayFiles) := Fin workerThreadNum → Fin days.length → Report

/-- The reports are what the sessions should send of the days. -/
def Reports.Of {days : List DayFiles} (reports : Reports days) : Prop :=
  ∀ id d, (days.get d).report (sessionOf id) = some (reports id d)

theorem Reports.Of.mapM_report {days : List DayFiles} {reports : Reports days}
    (h : reports.Of) (id : Fin workerThreadNum) :
    days.mapM (DayFiles.report (sessionOf id)) = some (List.ofFn (reports id)) :=
  Traverse.mapM_eq_some_ofFn (h id)

section uploads
variable {days : List DayFiles} {reports : Reports days} (hreports : reports.Of)
  (hdated : ∀ day ∈ days, day.Dated) (hdates : (days.map fun day => dateName day.path).Nodup)
include hreports hdated

theorem exists_resultName (id : Fin workerThreadNum) (d : Fin days.length) :
    ∃ name : FileName, nameBytes (reports id d).fileName = name.chars :=
  ⟨resultName (hdated _ (days.get_mem d)) id, nameBytes_report _ (hreports id d)⟩

include hdates

/-- The names of the reports are different. -/
theorem fileName_injective {id id' : Fin workerThreadNum} {d d' : Fin days.length}
    (h : nameBytes (reports id d).fileName = nameBytes (reports id' d').fileName) :
    id = id' ∧ d = d' := by
  rw [nameBytes_report (hdated _ (days.get_mem d)) (hreports id d),
    nameBytes_report (hdated _ (days.get_mem d')) (hreports id' d')] at h
  obtain ⟨hdate, hid⟩ := resultName_injective _ _ h
  refine ⟨hid, Fin.ext ?_⟩
  have hget : (days.map fun day => dateName day.path).get ⟨d.val, by simp⟩ =
      (days.map fun day => dateName day.path).get ⟨d'.val, by simp⟩ := by
    simpa using nameBytes_injective hdate
  exact Fin.mk.inj_iff.mp (hdates.injective_get hget)

end uploads

/-- What the clients bring: how the upload of a report arrives, and what the memory of its thread
holds. -/
structure Arrival where
  seg : Segmentation
  memory : Memory

/-- **Every report comes to be in its files.**  Under a fair schedule of the threads of the
matching machine each matching thread sends its report of every day, one after the other, and
under a fair schedule of the handlers of these uploads the server comes to hold the rows of
every report, as they lie in memory; the other files are left alone. -/
theorem delivered (memory : Fin bufferNum → List UInt8 × List UInt8 × List UInt8)
    {days : List DayFiles} (hdays : ∀ day ∈ days, day.Loadable)
    (horders : ∀ day ∈ days, day.orderLog ≠ []) (hdated : ∀ day ∈ days, day.Dated)
    (hdates : (days.map fun day => dateName day.path).Nodup) {reports : Reports days}
    (hreports : reports.Of) (hfits : ∀ id d, (reports id d).Fits)
    {schedule : ℕ → Thread} (hfair : Fairness.Fair schedule)
    (arrivals : Fin workerThreadNum × Fin days.length → Arrival)
    (hwhole : ∀ id d, WholeFields (arrivals (id, d)).seg (reports id d)) (files : Files)
    {order : ℕ → Fin workerThreadNum × Fin days.length} (hserved : Fairness.Fair order) :
    (∃ n, ∀ m, n ≤ m → ∀ id,
      let s := (Entrance.main memory (days.map DayFiles.reads)).run
        (Fairness.firstSteps schedule m)
      (Matching.performAll (sessionOf id) .start (s.workers id).calls).map Matching.sent =
        some (List.ofFn (reports id))) ∧
    ∃ n, ∀ m, n ≤ m →
      let t := serverRun (fun u => uploadClient (arrivals u).seg (arrivals u).memory
        (reports u.1 u.2)) files (Fairness.firstSteps order m)
      (∀ u, (t.threads u).place = .closed) ∧
        (∀ id d, t.store (reports id d).twapPath =
            some (twapOrderLayout.storeAll (reports id d).twapOrders) ∧
          t.store (reports id d).pnlPath =
            some (pnlAndPosLayout.storeAll (reports id d).pnlAndPos)) ∧
        ∀ path, (∀ id d, path ≠ (reports id d).twapPath ∧ path ≠ (reports id d).pnlPath) →
          t.store path = files path := by
  constructor
  · obtain ⟨n, hn⟩ := exists_sent memory hdays horders hfair
    exact ⟨n, fun m hle id => (hn m hle id).trans (hreports.mapM_report id)⟩
  · set clients : Fin workerThreadNum × Fin days.length → Client := fun u =>
      uploadClient (arrivals u).seg (arrivals u).memory (reports u.1 u.2) with hclients
    have hpaths : ∀ u path, path ∈ (clients u).paths ↔
        path = (reports u.1 u.2).twapPath ∨ path = (reports u.1 u.2).pnlPath := fun u path => by
      obtain ⟨name, hname⟩ := exists_resultName hreports hdated u.1 u.2
      exact mem_paths_uploadClient (hwhole u.1 u.2).name _ hname path
    have hnames : ∀ u v, u ≠ v → (clients u).name ≠ (clients v).name := fun u v hne heq => by
      obtain ⟨name, hname⟩ := exists_resultName hreports hdated u.1 u.2
      obtain ⟨name', hname'⟩ := exists_resultName hreports hdated v.1 v.2
      simp only [hclients, name_uploadClient (hwhole u.1 u.2).name _ hname,
        name_uploadClient (hwhole v.1 v.2).name _ hname'] at heq
      obtain ⟨hid, hd⟩ := fileName_injective hreports hdated hdates heq
      exact hne (Prod.ext hid hd)
    obtain ⟨n, hn⟩ := exists_served clients files hnames hserved
    refine ⟨n, fun m hle => ?_⟩
    obtain ⟨hclosed, hother, hstore⟩ := hn m hle
    refine ⟨hclosed, fun id d => ?_, fun path hpath => hother path fun u hmem => ?_⟩
    · obtain ⟨name, hname⟩ := exists_resultName hreports hdated id d
      have hhandled : handleClient (clients (id, d)).seg (clients (id, d)).memory
          (clients (id, d)).stream =
            [⟨(reports id d).twapPath, twapOrderLayout.storeAll (reports id d).twapOrders⟩,
              ⟨(reports id d).pnlPath, pnlAndPosLayout.storeAll (reports id d).pnlAndPos⟩] :=
        handleClient_upload (hwhole id d) (hfits id d) hname (arrivals (id, d)).memory
      rw [hstore (id, d) _ ((hpaths (id, d) _).mpr (.inl rfl)),
        hstore (id, d) _ ((hpaths (id, d) _).mpr (.inr rfl)), hhandled]
      exact writeAll_upload files (reports id d) _ _
    · rcases (hpaths u path).mp hmem with h | h
      · exact (hpath u.1 u.2).1 h
      · exact (hpath u.1 u.2).2 h

/-- The day of the baseline test, and its reports. -/
def twoInstrumentsDays : List DayFiles := [BaselineTest.twoInstruments]

def twoInstrumentsReports : Reports twoInstrumentsDays := fun id d =>
  ((twoInstrumentsDays.get d).report (sessionOf id)).getD ⟨"", [], []⟩

/-- The fields arrive whole. -/
def wholeArrival : Arrival := ⟨wholeSeg, Memory.filled 255⟩

/-- The uploads of the day in turn. -/
def uploadsInTurn (n : ℕ) : Fin workerThreadNum × Fin twoInstrumentsDays.length :=
  (⟨n % 5, Nat.mod_lt _ (by decide)⟩, ⟨0, by decide⟩)

theorem fair_uploadsInTurn : Fairness.Fair uploadsInTurn := by
  rintro ⟨id, d⟩ n
  have hid : id.val < 5 := id.isLt
  refine ⟨5 * n + id, by omega, Prod.ext (Fin.ext ?_) (Fin.ext ?_)⟩
  · change (5 * n + id.val) % 5 = id.val
    omega
  · have hd : d.val < 1 := d.isLt
    change 0 = d.val
    omega

theorem delivered_twoInstruments :
    (∃ n, ∀ m, n ≤ m → ∀ id,
      let s := (Entrance.main (fun _ => ([], [], [])) (twoInstrumentsDays.map DayFiles.reads)).run
        (Fairness.firstSteps Entrance.inTurns m)
      (Matching.performAll (sessionOf id) .start (s.workers id).calls).map Matching.sent =
        some (List.ofFn (twoInstrumentsReports id))) ∧
    ∃ n, ∀ m, n ≤ m →
      let t := serverRun (fun u => uploadClient wholeArrival.seg wholeArrival.memory
        (twoInstrumentsReports u.1 u.2)) (fun _ => none) (Fairness.firstSteps uploadsInTurn m)
      (∀ u, (t.threads u).place = .closed) ∧
        (∀ id d, t.store (twoInstrumentsReports id d).twapPath =
            some (twapOrderLayout.storeAll (twoInstrumentsReports id d).twapOrders) ∧
          t.store (twoInstrumentsReports id d).pnlPath =
            some (pnlAndPosLayout.storeAll (twoInstrumentsReports id d).pnlAndPos)) ∧
        ∀ path, (∀ id d, path ≠ (twoInstrumentsReports id d).twapPath ∧
          path ≠ (twoInstrumentsReports id d).pnlPath) → t.store path = none := by
  have hreports : twoInstrumentsReports.Of := by
    unfold Reports.Of
    decide +kernel
  have hdated : ∀ day ∈ twoInstrumentsDays, day.Dated := by
    intro day hday
    obtain rfl := List.mem_singleton.mp hday
    exact ⟨by decide +kernel, by decide +kernel⟩
  have hrows : ∀ id d, (twoInstrumentsReports id d).twapOrders.length ≤ 30 ∧
      (twoInstrumentsReports id d).pnlAndPos.length ≤ 2 := by
    decide +kernel
  have hfits : ∀ id d, (twoInstrumentsReports id d).Fits := by
    intro id d
    obtain ⟨htwap, hpnl⟩ := hrows id d
    constructor
    · simp only [twapOrderSize, longSize]
      omega
    · simp only [pnlAndPosSize, longSize]
      omega
  exact delivered (fun _ => ([], [], [])) (by decide +kernel) (by decide +kernel) hdated
    (by decide +kernel) hreports hfits Entrance.fair_inTurns
    (fun _ => wholeArrival) (fun _ _ => ⟨by decide, by decide, (by decide : longSize ≤ 20)⟩)
    (fun _ => none) fair_uploadsInTurn

end MatchingEngine
