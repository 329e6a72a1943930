import Cmcs.Csv
import Cmcs.Decimal
import Cmcs.RunTest
import Mathlib.Logic.Function.Basic
import Mathlib.Tactic

/-!
# The throughput files

`_write_csv` of `run_test.py` and `_load_csv_results` of `analyze_results.py`.  The
files are a map from paths to contents.  A result `none` is an exception: a key which a
dictionary lacks, a malformed record, or a value which is no number.
-/

namespace Cmcs

namespace RunTest

open Text

abbrev Files := List Char → Option (List Char)

def resultDir : List Char := "test/result".toList

def throughputPath (vnid : ℕ) : List Char :=
  resultDir ++ "/vn".toList ++ ofNat vnid ++ "_throughput.csv".toList

/-! ## `_write_csv` -/

def throughputHeader : List Char := "phase_name,proto,t_start_sec,throughput_mbps".toList

/-- `'{name},{proto},{t:.1f},{mbps:.4f}'` -/
def throughputLine (name : List Char) (proto : Proto) (sample : ℚ × ℚ) : List Char :=
  name ++ ',' :: (proto.text ++ ',' :: (Decimal.fixed 1 sample.1 ++ ',' ::
    Decimal.fixed 4 sample.2))

/-- The lines for one phase, which comes with its index. -/
def phaseLines (allResults : ℕ → ℕ → List (ℚ × ℚ)) (vnid : ℕ) (item : Phase × ℕ) :
    Option (List (List Char)) :=
  if item.1.isIdle = true ∨ vnid ∉ item.1.activeVnids then some []
  else do
    let sess ← item.1.flowMap.lookup vnid
    some ((allResults item.2 vnid).map (throughputLine item.1.name sess.proto))

def throughputText (allResults : ℕ → ℕ → List (ℚ × ℚ)) (phases : List Phase) (vnid : ℕ) :
    Option (List Char) :=
  (phases.zipIdx.mapM (phaseLines allResults vnid)).map fun groups =>
    unlines (throughputHeader :: groups.flatten)

def writeVn (allResults : ℕ → ℕ → List (ℚ × ℚ)) (phases : List Phase) (files : Files)
    (item : ℕ × VnEntry) : Option Files :=
  (throughputText allResults phases item.1).map fun text =>
    Function.update files (throughputPath item.1) (some text)

def Vns.writeCsv (vns : Vns) (allResults : ℕ → ℕ → List (ℚ × ℚ)) (phases : List Phase)
    (files : Files) : Option Files :=
  vns.items.foldlM (writeVn allResults phases) files

/-! ## `_load_csv_results` -/

/-- The values of every phase index and VN. -/
abbrev Results := List (ℕ × List (ℕ × List ℚ))

def activePhases (phases : List Phase) : List (Phase × ℕ) :=
  phases.zipIdx.filter fun item => ¬item.1.isIdle = true

def nameToIdx (phases : List Phase) : List (List Char × ℕ) :=
  Dict.ofList ((activePhases phases).map fun item => (item.1.name, item.2))

def emptyResults (phases : List Phase) : Results :=
  Dict.ofList ((activePhases phases).map fun item =>
    (item.2, Dict.ofList (item.1.activeVnids.map fun vnid => (vnid, []))))

def addRow (names : List (List Char × ℕ)) (vnid : ℕ) (results : Results)
    (row : List (List Char × Option (List Char))) : Option Results := do
  let phName ← row.lookup "phase_name".toList
  let cell ← row.lookup "throughput_mbps".toList
  let text ← cell
  let mbps ← Decimal.float text
  match phName.bind fun name => names.lookup name with
  | none => some results
  | some phIdx => do
      let result ← results.lookup phIdx
      if vnid ∈ result.map Prod.fst then
        some (Dict.modify results phIdx fun result =>
          Dict.modify result vnid fun values => values ++ [mbps])
      else some results

def loadFile (names : List (List Char × ℕ)) (vnid : ℕ) (results : Results)
    (content : List Char) : Option Results := do
  let records ← Csv.records {} (fileLines content)
  (Csv.dictRows records).foldlM (addRow names vnid) results

/-- A VN without a file is skipped. -/
def loadVn (phases : List Phase) (files : Files) (results : Results) (item : ℕ × VnEntry) :
    Option Results :=
  match files (throughputPath item.1) with
  | none => some results
  | some content => loadFile (nameToIdx phases) item.1 results content

def Vns.loadCsvResults (vns : Vns) (phases : List Phase) (files : Files) : Option Results :=
  vns.items.foldlM (loadVn phases files) (emptyResults phases)

end RunTest

end Cmcs
