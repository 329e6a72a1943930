import Cmcs.TableEntries
import Mathlib.Tactic

/-!
# Programming a switch

`program_switch`: the configuration is checked, then the connection is opened, the
pipeline is set and the entries are written one after the other.  The first exception
or error status ends the run, and the connection is closed unless the switch never
answers the arbitration.

What the switch does with a call is a parameter: it has a state and accepts the call or
returns an error status.
-/

namespace Cmcs

namespace ControlPlane

/-! ## The connection -/

inductive UpdateType
  | insert
  | modify
  deriving DecidableEq

structure WriteRequest (E : Type) where
  deviceId : ℕ
  electionIdLow : ℕ
  updateType : UpdateType
  entity : E
  deriving DecidableEq

inductive Call
  | masterArbitrationUpdate (deviceId electionIdHigh electionIdLow : ℕ)
  | setForwardingPipelineConfig (deviceId electionIdLow : ℕ) (p4info : P4Info)
      (bmv2JsonFile : List Char)
  | write (request : WriteRequest TableEntry)
  | writePre (request : WriteRequest PacketReplicationEngineEntry)
  | shutdown
  deriving DecidableEq

def writeTableEntry (deviceId : ℕ) (tableEntry : TableEntry) : Call :=
  .write ⟨deviceId, 1, if tableEntry.isDefaultAction then .modify else .insert, tableEntry⟩

def writePreEntry (deviceId : ℕ) (preEntry : PacketReplicationEngineEntry) : Call :=
  .writePre ⟨deviceId, 1, .insert, preEntry⟩

/-! ## The configuration -/

/-- The files below the working directory.  A file may be there and yet not be readable. -/
structure Files where
  pathExists : List Char → Bool
  isJson : List Char → Except (PyError Empty) Bool
  p4info : List Char → Raises P4Info

def checkTarget (swConf : Json) : Raises Unit := do
  let hasTarget ← swConf.contains "target".toList
  if hasTarget then do
    let target ← swConf.item "target".toList
    if target.isText "bmv2".toList then pure () else .error (.raised (.unknownTarget target))
  else .error (.raised .missingTarget)

def checkRequired (swConf : Json) (confKey : List Char) : Raises Unit := do
  let hasKey ← swConf.contains confKey
  if hasKey then do
    let value ← swConf.item confKey
    let length ← value.len
    if length = 0 then .error (.raised (.missingKey confKey)) else pure ()
  else .error (.raised (.missingKey confKey))

/-- `os.path.join` takes a string. -/
def fileOf (swConf : Json) (confKey : List Char) : Raises (List Char) := do
  let value ← swConf.item confKey
  match value with
  | .str file => .ok file
  | _ => .error .typeError

def checkJson (files : Files) (file : List Char) : Raises Unit :=
  match files.isJson file with
  | .error e => .error e.lift
  | .ok true => pure ()
  | .ok false => .error (.raised (.invalidJson file))

def checkFile (files : Files) (swConf : Json) (confKey : List Char) : Raises Unit := do
  let file ← fileOf swConf confKey
  if !files.pathExists file then .error (.raised (.fileDoesNotExist file))
  else if confKey = "bmv2_json".toList then checkJson files file
  else pure ()

def requiredKeys : List (List Char) := ["p4info".toList, "bmv2_json".toList]

def checkSwitchConf (files : Files) (swConf : Json) : Raises Unit := do
  checkTarget swConf
  requiredKeys.forM (checkRequired swConf)
  requiredKeys.forM (checkFile files swConf)

/-! ## The run -/

/-- `for entry in sw_conf[key]`, when there is the key. -/
def entriesOf (swConf : Json) (key : List Char) (step : Json → Raises Call) :
    List (Raises Call) :=
  match swConf with
  | .dict items =>
      match items.lookup key with
      | none => []
      | some value =>
          match value.elements with
          | .ok entries => entries.map step
          | .error e => [.error e]
  | _ => [.error .typeError]

variable (files : Files) (deviceId : ℕ) (runtimeJson : List Char) (swConf : Json)

/-- What is called behind the arbitration, unless it raises, in the order of the program. -/
def steps (p4info : P4Info) (bmv2JsonFile : List Char) : List (Raises Call) :=
  .ok (.setForwardingPipelineConfig deviceId 1 p4info bmv2JsonFile) ::
  entriesOf swConf "table_entries".toList (fun entry =>
    (tableEntryOf p4info runtimeJson entry).map (writeTableEntry deviceId)) ++
  entriesOf swConf "multicast_group_entries".toList (fun entry =>
    (groupEntryOf entry).map (writePreEntry deviceId)) ++
  entriesOf swConf "clone_session_entries".toList (fun entry =>
    (cloneEntryOf entry).map (writePreEntry deviceId))

/-- How the run ends: behind the whole plan, with an exception, with a `ConfException`
which is caught and written to the terminal, with an error status, or never. -/
inductive Outcome
  | finished
  | raised (e : PyError ControllerError)
  | refused (e : ControllerError)
  | rpcError
  | waiting

def Outcome.isFinished : Outcome → Bool
  | .finished => true
  | _ => false

theorem Outcome.isFinished_iff {outcome : Outcome} :
    outcome.isFinished = true ↔ outcome = .finished := by
  cases outcome <;> simp [isFinished]

structure RunResult (σ : Type) where
  calls : List Call
  state : σ
  outcome : Outcome

variable {σ : Type} (server : σ → Call → Option σ)

def execute : σ → List (Raises Call) → RunResult σ
  | s, [] => ⟨[], s, .finished⟩
  | s, .error e :: _ => ⟨[], s, .raised e⟩
  | s, .ok call :: rest =>
      match server s call with
      | none => ⟨[call], s, .rpcError⟩
      | some s' =>
          let run := execute s' rest
          { run with calls := call :: run.calls }

/-- What is read before the connection is opened. -/
def prepare : Raises (P4Info × List Char) := do
  checkSwitchConf files swConf
  let p4infoFile ← fileOf swConf "p4info".toList
  let p4info ← files.p4info p4infoFile
  let bmv2JsonFile ← fileOf swConf "bmv2_json".toList
  pure (p4info, bmv2JsonFile)

/-- The run behind the reading. -/
def connect (p4info : P4Info) (bmv2JsonFile : List Char) (s : σ) : RunResult σ :=
  match server s (.masterArbitrationUpdate deviceId 0 1) with
  | none => ⟨[.masterArbitrationUpdate deviceId 0 1], s, .waiting⟩
  | some s' =>
      let run := execute server s' (steps deviceId runtimeJson swConf p4info bmv2JsonFile)
      { run with calls :=
          .masterArbitrationUpdate deviceId 0 1 :: run.calls ++ [.shutdown] }

/-- `program_switch` -/
def programSwitch (s : σ) : RunResult σ :=
  match checkSwitchConf files swConf with
  | .error (.raised e) => ⟨[], s, .refused e⟩
  | _ =>
      match prepare files swConf with
      | .error e => ⟨[], s, .raised e⟩
      | .ok (p4info, bmv2JsonFile) =>
          connect deviceId runtimeJson swConf server p4info bmv2JsonFile s

/-! ## Runs -/

variable {server} {s : σ} {planned : List (Raises Call)}

theorem calls_execute (s : σ) (planned : List (Raises Call)) :
    ((execute server s planned).calls.map Except.ok) <+: planned := by
  induction planned generalizing s with
  | nil => exact List.prefix_rfl
  | cons step planned ih =>
      cases step with
      | error e => exact List.nil_prefix
      | ok call =>
          rw [execute]
          cases hcall : server s call with
          | none => simp
          | some s' => simpa using ih s'

/-- The switch is where the calls have brought it, and the whole plan is done if nothing
failed. -/
theorem execute_eq_finished (s : σ) (planned : List (Raises Call)) :
    (execute server s planned).outcome = .finished ↔
      planned = (execute server s planned).calls.map Except.ok ∧
        (execute server s planned).calls.foldlM server s =
          some (execute server s planned).state := by
  induction planned generalizing s with
  | nil => simp [execute]
  | cons step planned ih =>
      cases step with
      | error e => simp [execute]
      | ok call =>
          rw [execute]
          cases hcall : server s call with
          | none => simp [hcall]
          | some s' => simpa [hcall] using ih s'

theorem exists_of_mem_entriesOf {key : List Char} {step : Json → Raises Call} {call : Call}
    (hcall : .ok call ∈ entriesOf swConf key step) : ∃ entry, step entry = .ok call := by
  unfold entriesOf at hcall
  split at hcall
  next =>
    split at hcall
    next => simp at hcall
    next =>
      split at hcall
      next =>
        obtain ⟨entry, -, hentry⟩ := List.mem_map.mp hcall
        exact ⟨entry, hentry⟩
      next => simp at hcall
  next => simp at hcall

/-- The calls behind the arbitration set the pipeline, write the message of an entry, or
write to the packet replication engine. -/
theorem mem_steps {p4info : P4Info} {bmv2JsonFile : List Char} {call : Call}
    (hcall : .ok call ∈ steps deviceId runtimeJson swConf p4info bmv2JsonFile) :
    call = .setForwardingPipelineConfig deviceId 1 p4info bmv2JsonFile ∨
    (∃ flow e, tableEntryOf p4info runtimeJson flow = .ok e ∧
      call = writeTableEntry deviceId e) ∨
    ∃ e, call = writePreEntry deviceId e := by
  have hmap : ∀ {α : Type} {x : Raises α} {f : α → Call}, x.map f = .ok call →
      ∃ a, x = .ok a ∧ call = f a := by
    intro α x f hx
    cases x with
    | error e => cases hx
    | ok a => exact ⟨a, rfl, (Except.ok.inj hx).symm⟩
  rw [steps, List.mem_append, List.mem_append, List.mem_cons] at hcall
  rcases hcall with ((hcall | hcall) | hcall) | hcall
  · exact Or.inl (Except.ok.inj hcall)
  · obtain ⟨flow, hflow⟩ := exists_of_mem_entriesOf swConf hcall
    obtain ⟨e, he, rfl⟩ := hmap hflow
    exact Or.inr (Or.inl ⟨flow, e, he, rfl⟩)
  · obtain ⟨rule, hrule⟩ := exists_of_mem_entriesOf swConf hcall
    obtain ⟨e, -, rfl⟩ := hmap hrule
    exact Or.inr (Or.inr ⟨e, rfl⟩)
  · obtain ⟨rule, hrule⟩ := exists_of_mem_entriesOf swConf hcall
    obtain ⟨e, -, rfl⟩ := hmap hrule
    exact Or.inr (Or.inr ⟨e, rfl⟩)

/-- A connection: the arbitration, then the first calls of the plan, all of them exactly if
the run is finished, then the end. -/
structure Connected (server : σ → Call → Option σ) (s : σ) (p4info : P4Info)
    (bmv2JsonFile : List Char) (done : List Call) (run : RunResult σ) : Prop where
  calls : run.calls = .masterArbitrationUpdate deviceId 0 1 :: done ++ [.shutdown]
  planned : done.map Except.ok <+: steps deviceId runtimeJson swConf p4info bmv2JsonFile
  finished : run.outcome = .finished ↔
    steps deviceId runtimeJson swConf p4info bmv2JsonFile = done.map Except.ok ∧
      (.masterArbitrationUpdate deviceId 0 1 :: done).foldlM server s = some run.state

/-- The runs of `program_switch`. -/
inductive Orderly (server : σ → Call → Option σ) (s : σ) (run : RunResult σ) : Prop
  | refused (e : ControllerError) (checked : checkSwitchConf files swConf = .error (.raised e))
      (calls : run.calls = []) (state : run.state = s) (outcome : run.outcome = .refused e)
  | raised (e : PyError ControllerError) (prepared : prepare files swConf = .error e)
      (calls : run.calls = []) (state : run.state = s) (outcome : run.outcome = .raised e)
  | waiting (calls : run.calls = [.masterArbitrationUpdate deviceId 0 1]) (state : run.state = s)
      (outcome : run.outcome = .waiting)
  | connected (p4info : P4Info) (bmv2JsonFile : List Char) (done : List Call)
      (prepared : prepare files swConf = .ok (p4info, bmv2JsonFile))
      (connected : Connected deviceId runtimeJson swConf server s p4info bmv2JsonFile done run)

theorem connect_orderly {p4info : P4Info} {bmv2JsonFile : List Char}
    (hprepare : prepare files swConf = .ok (p4info, bmv2JsonFile)) (s : σ) :
    Orderly files deviceId runtimeJson swConf server s
      (connect deviceId runtimeJson swConf server p4info bmv2JsonFile s) := by
  unfold connect
  cases hanswer : server s (.masterArbitrationUpdate deviceId 0 1) with
  | none => exact .waiting rfl rfl rfl
  | some s' =>
      refine .connected p4info bmv2JsonFile _ hprepare ⟨rfl, calls_execute s' _, ?_⟩
      rw [List.foldlM_cons, hanswer]
      exact execute_eq_finished s' _

variable (server)

theorem programSwitch_orderly (s : σ) :
    Orderly files deviceId runtimeJson swConf server s
      (programSwitch files deviceId runtimeJson swConf server s) := by
  unfold programSwitch
  split
  next e hcheck => exact .refused e hcheck rfl rfl rfl
  next =>
    split
    next e hprepare => exact .raised e hprepare rfl rfl rfl
    next p4info bmv2JsonFile hprepare =>
      exact connect_orderly files deviceId runtimeJson swConf hprepare s

/-- A connection which writes has set the pipeline first. -/
theorem Connected.pipeline {server : σ → Call → Option σ} {p4info : P4Info}
    {bmv2JsonFile : List Char} {done : List Call} {run : RunResult σ}
    (hconnected : Connected deviceId runtimeJson swConf server s p4info bmv2JsonFile done run)
    (hdone : done ≠ []) :
    .setForwardingPipelineConfig deviceId 1 p4info bmv2JsonFile ∈ run.calls := by
  obtain ⟨first, rest, rfl⟩ := List.exists_cons_of_ne_nil hdone
  have hplanned := hconnected.planned
  rw [List.map_cons, steps] at hplanned
  have hfirst := (List.cons_prefix_cons.mp hplanned).1
  rw [hconnected.calls, Except.ok.inj hfirst]
  simp

/-- Every run is orderly, and everything it writes to a table conforms to the P4Info which
it has read and set, whatever is in the configuration and whatever the switch answers. -/
theorem programSwitch_conforms
    (hfiles : ∀ p4info bmv2JsonFile, prepare files swConf = .ok (p4info, bmv2JsonFile) →
      p4info.Unambiguous) (s : σ) :
    Orderly files deviceId runtimeJson swConf server s
      (programSwitch files deviceId runtimeJson swConf server s) ∧
    ∀ request, .write request ∈ (programSwitch files deviceId runtimeJson swConf server s).calls →
      (request.updateType = .modify ↔ request.entity.isDefaultAction = true) ∧
      ∃ p4info bmv2JsonFile, prepare files swConf = .ok (p4info, bmv2JsonFile) ∧
        .setForwardingPipelineConfig deviceId 1 p4info bmv2JsonFile ∈
          (programSwitch files deviceId runtimeJson swConf server s).calls ∧
        request.entity.Conforms p4info := by
  have horderly := programSwitch_orderly files deviceId runtimeJson swConf server s
  refine ⟨horderly, fun request hrequest => ?_⟩
  cases horderly with
  | refused e hcheck hcalls => simp [hcalls] at hrequest
  | raised e hprepare hcalls => simp [hcalls] at hrequest
  | waiting hcalls => simp [hcalls] at hrequest
  | connected p4info bmv2JsonFile done hprepare hconnected =>
      have hdone : .write request ∈ done := by simpa [hconnected.calls] using hrequest
      have hset := hconnected.pipeline deviceId runtimeJson swConf (List.ne_nil_of_mem hdone)
      have hstep := hconnected.planned.subset (List.mem_map_of_mem hdone)
      rcases mem_steps deviceId runtimeJson swConf hstep with hpipeline | ⟨flow, e, he, hwrite⟩ |
        ⟨e, hwrite⟩
      · cases hpipeline
      · obtain rfl := Call.write.inj hwrite
        refine ⟨?_, p4info, bmv2JsonFile, hprepare, hset,
          conforms_of_tableEntryOf (hfiles p4info bmv2JsonFile hprepare) he⟩
        cases hdefault : e.isDefaultAction <;> simp
      · cases hwrite

/-- The description of `color_markers.p4` with some numbers. -/
def someP4Info : P4Info where
  tables :=
    [⟨⟨1, "MyIngress.ipv4_lpm".toList, "ipv4_lpm".toList⟩,
        [⟨1, "hdr.ipv4.dstAddr".toList, 32, .lpm⟩]⟩,
      ⟨⟨2, "MyIngress.vn_classifier".toList, "vn_classifier".toList⟩,
        [⟨1, "hdr.ipv4.srcAddr".toList, 32, .exact⟩,
          ⟨2, "hdr.ipv4.dstAddr".toList, 32, .exact⟩]⟩]
  actions :=
    [⟨⟨1, "MyIngress.ipv4_forward".toList, "ipv4_forward".toList⟩,
        [⟨1, "dstAddr".toList, 48⟩, ⟨2, "port".toList, 9⟩]⟩,
      ⟨⟨2, "MyIngress.drop".toList, "drop".toList⟩, []⟩,
      ⟨⟨3, "NoAction".toList, "NoAction".toList⟩, []⟩,
      ⟨⟨4, "MyIngress.set_vn_params".toList, "set_vn_params".toList⟩,
        [⟨1, "vn_id_param".toList, 8⟩, ⟨2, "guaranteed_bandwidth_param".toList, 48⟩]⟩]

theorem unambiguous_someP4Info : someP4Info.Unambiguous :=
  ⟨by unfold Preamble.Unambiguous; decide, by unfold Preamble.Unambiguous; decide⟩

def someFiles : Files := ⟨fun _ => true, fun _ => .ok true, fun _ => .ok someP4Info⟩

theorem p4info_of_prepare {swConf : Json} {p4info : P4Info} {bmv2JsonFile : List Char}
    (hprepare : prepare someFiles swConf = .ok (p4info, bmv2JsonFile)) : p4info = someP4Info := by
  simp only [prepare, PyError.bind_eq_ok] at hprepare
  obtain ⟨-, -, file, -, p4info', hp4info, bmv2JsonFile', -, hpure⟩ := hprepare
  obtain ⟨rfl, rfl⟩ := Prod.mk.inj (Except.ok.inj hpure)
  exact (Except.ok.inj hp4info).symm

/-- The configuration whose only entry is the default action. -/
def dropConf : Json :=
  .dict [("target".toList, .str "bmv2".toList),
    ("p4info".toList, .str "color_markers.p4.p4info.txtpb".toList),
    ("bmv2_json".toList, .str "color_markers.json".toList),
    ("table_entries".toList, .list [.dict [("table".toList, .str "MyIngress.ipv4_lpm".toList),
      ("default_action".toList, .bool true), ("action_name".toList, .str "MyIngress.drop".toList),
      ("action_params".toList, .dict [])]])]

def dropRun : RunResult Unit :=
  programSwitch someFiles 0 "s1-runtime.json".toList dropConf (fun _ _ => some ()) ()

theorem programSwitch_conforms_drop :
    Orderly someFiles 0 "s1-runtime.json".toList dropConf (fun _ _ => some ()) () dropRun ∧
    ∀ request, .write request ∈ dropRun.calls →
      (request.updateType = .modify ↔ request.entity.isDefaultAction = true) ∧
      ∃ p4info bmv2JsonFile, prepare someFiles dropConf = .ok (p4info, bmv2JsonFile) ∧
        .setForwardingPipelineConfig 0 1 p4info bmv2JsonFile ∈ dropRun.calls ∧
        request.entity.Conforms p4info :=
  programSwitch_conforms someFiles 0 "s1-runtime.json".toList dropConf (fun _ _ => some ())
    (fun p4info bmv2JsonFile hprepare => by
      obtain rfl := p4info_of_prepare hprepare
      exact unambiguous_someP4Info) ()

example : dropRun.calls = [.masterArbitrationUpdate 0 0 1,
    .setForwardingPipelineConfig 0 1 someP4Info "color_markers.json".toList,
    .write ⟨0, 1, .modify, ⟨1, [], some ⟨2, []⟩, true, 0⟩⟩, .shutdown] := by decide +kernel

/-- Parameters of the wrong type are not found out if there is no action. -/
example : tableEntryOf someP4Info "s1-runtime.json".toList
    (.dict [("table".toList, .str "ipv4_lpm".toList), ("action_name".toList, .str []),
      ("action_params".toList, .list [.int 0])]) = .ok ⟨1, [], none, false, 0⟩ :=
  rfl

end ControlPlane

end Cmcs
