import PaxosPayments.Foundations.Json
import PaxosPayments.Foundations.Lines
import PaxosPayments.Foundations.Runs
import PaxosPayments.Paxos.Node

/-!
# The log file

The entry file of `log.go`: `Log.Accept` appends an entry as one line of JSON and acknowledges it,
`OpenLog` reads the file line by line and skips what does not parse. A process may die during an
`Accept` and leave any part of the line in the file. `Durable` is the file with the log of the
process that runs on it, if any.

An acknowledged entry is to be read back after every reopening (`Explains`). That holds in the runs
in which nothing is accepted while the last line of the file is torn (`acknowledged_survives`). The
code does accept then: `OpenLog` neither removes the torn line nor ends it, so that the next entry
is appended to it, and the two together do not parse. The entry is acknowledged and lost
(`replay_append_torn`, `acknowledged_lost`).
-/

namespace PaxosPayments.Paxos

abbrev Bytes := List UInt8

/-- Newline and carriage return, as bytes. -/
def byteEnds : LineEnds UInt8 := ⟨10, 13⟩

open LineEnds

/-- What is assumed of `encoding/json` for an `Entry`: an entry is encoded on one line and is read
back; neither a proper part of an encoding nor a part followed by another encoding parses.
`jsonCodec` has these laws. -/
structure Codec where
  encode : Entry → Bytes
  decode : Bytes → Option Entry
  roundTrip : ∀ e, decode (encode e) = some e
  oneLine : ∀ e, byteEnds.newline ∉ encode e ∧ byteEnds.carriageReturn ∉ encode e
  torn : ∀ e p, p <+: encode e → p ≠ encode e → decode p = none
  merged : ∀ e e' p, p <+: encode e → p ≠ [] → decode (p ++ encode e') = none

namespace LogFile

variable (json : Codec)

/-- The line that `Accept` appends. -/
def line (e : Entry) : Bytes := json.encode e ++ [byteEnds.newline]

/-- One line of `replay`. -/
def replayLine (l : Log) (raw : Bytes) : Log :=
  if raw = [] then l
  else match json.decode raw with
    | none => l
    | some e => l.accept e

/-- `replay`: the entries of the file. -/
def replay (file : Bytes) : Log := (byteEnds.scanLines file).foldl (replayLine json) Log.empty

/-- The file, the log of the running process, and the calls of `Accept` so far, newest first, with
whether they returned `nil`. -/
structure Durable where
  file : Bytes
  log : Option Log
  history : List (Entry × Bool)

def Durable.init : Durable := ⟨[], none, []⟩

inductive Action
  /-- `OpenLog`, by a new process. -/
  | openLog
  /-- An `Accept` that returns `nil`. -/
  | accept (e : Entry)
  /-- The process dies in an `Accept`, of whose line `k` bytes are written. -/
  | tear (e : Entry) (k : ℕ)
  /-- The process dies outside of `Accept`. -/
  | crash

def step (d : Durable) : Action → Option Durable
  | .openLog =>
    match d.log with
    | none => some { d with log := some (replay json d.file) }
    | some _ => none
  | .accept e =>
    match d.log with
    | none => none
    | some l =>
      some ⟨d.file ++ line json e, some (l.accept e), (e, true) :: d.history⟩
  | .tear e k =>
    match d.log with
    | none => none
    | some _ => some ⟨d.file ++ (line json e).take k, none, (e, false) :: d.history⟩
  | .crash =>
    match d.log with
    | none => none
    | some _ => some { d with log := none }

/-- `Log.Get` for slot `s` returns `r` as the calls of `Accept` explain it: the entry of the last
acknowledged call for the slot, or of a later one that was interrupted. -/
def Explains (s : ℕ) (r : Option Entry) : List (Entry × Bool) → Prop
  | [] => r = none
  | (e, acknowledged) :: history =>
    if e.slot = s then
      if acknowledged then r = some e else r = some e ∨ Explains s r history
    else Explains s r history

/-- Nothing is accepted while the last line of the file is torn. -/
def onWholeFile (d : Durable) : Action → Bool
  | .accept _ => decide (byteEnds.Whole d.file)
  | .tear _ _ => decide (byteEnds.Whole d.file)
  | _ => true

/-! ## Reading back -/

variable {json} {file p : Bytes} {e e' : Entry}

theorem encode_ne_nil (e : Entry) : json.encode e ≠ [] := by
  intro hnil
  have hdec : json.decode [] = some e := hnil ▸ json.roundTrip e
  -- another entry would have the same encoding, or a proper part of its encoding would parse
  let e' : Entry := ⟨e.slot + 1, e.ballot, e.command⟩
  by_cases hnil' : json.encode e' = []
  · have hdec' : json.decode [] = some e' := hnil' ▸ json.roundTrip e'
    have heq := congrArg Entry.slot (Option.some.inj (hdec.symm.trans hdec'))
    simp [e'] at heq
  · have := json.torn e' [] List.nil_prefix (Ne.symm hnil')
    rw [hdec] at this
    simp at this

theorem part_plain (hp : p <+: json.encode e) : byteEnds.Plain p :=
  plain_of_not_mem (fun h => (json.oneLine e).1 (hp.subset h))
    fun h => (json.oneLine e).2 (hp.subset h)

theorem encode_plain (e : Entry) : byteEnds.Plain (json.encode e) := part_plain List.prefix_rfl

theorem merged_plain (hp : p <+: json.encode e) (e' : Entry) :
    byteEnds.Plain (p ++ json.encode e') := by
  apply plain_of_not_mem <;> rw [List.mem_append, not_or]
  · exact ⟨fun h => (json.oneLine e).1 (hp.subset h), (json.oneLine e').1⟩
  · exact ⟨fun h => (json.oneLine e).2 (hp.subset h), (json.oneLine e').2⟩

theorem replay_append_line (hw : byteEnds.Whole file) (e : Entry) :
    replay json (file ++ line json e) = (replay json file).accept e := by
  unfold replay line
  rw [scanLines_append_line hw (encode_plain e), List.foldl_append]
  simp [replayLine, encode_ne_nil, json.roundTrip]

/-- What a crash leaves of a line: nothing of the entry, or all of it. -/
theorem replay_append_take (hw : byteEnds.Whole file) (e : Entry) (k : ℕ) :
    replay json (file ++ (line json e).take k) = replay json file ∨
      replay json (file ++ (line json e).take k) = (replay json file).accept e := by
  rcases Nat.lt_or_ge (json.encode e).length k with hk | hk
  · right
    rw [List.take_of_length_le (by simp [line]; omega)]
    exact replay_append_line hw e
  · have htake : (line json e).take k = (json.encode e).take k := by
      simp [line, List.take_append_of_le_length hk]
    have hplain : byteEnds.Plain ((json.encode e).take k) := part_plain (List.take_prefix k _)
    rw [htake]
    unfold replay
    rw [scanLines_append_torn hw hplain, List.foldl_append]
    by_cases hp : (json.encode e).take k = json.encode e
    · right
      simp [hp, replayLine, encode_ne_nil, json.roundTrip]
    · left
      have hdec := json.torn e _ (List.take_prefix k _) hp
      split_ifs with hnil
      · rfl
      · simp [replayLine, hdec]

/-- **An entry appended to a torn line is not read back**, nor is what was torn. -/
theorem replay_append_torn (hw : byteEnds.Whole file) (hp : p <+: json.encode e) (hne : p ≠ [])
    (e' : Entry) :
    replay json (file ++ p ++ line json e') = replay json file := by
  unfold replay line
  rw [scanLines_append_torn_line hw (merged_plain hp e'), List.foldl_append]
  simp [replayLine, json.merged e e' p hp hne]

/-! ## Acknowledged entries -/

theorem explains_accept {s : ℕ} {l : Log} {history : List (Entry × Bool)}
    (h : ∀ s, Explains s (l.entries s) history) (acknowledged : Bool) :
    Explains s ((l.accept e).entries s) ((e, acknowledged) :: history) := by
  unfold Explains
  by_cases hs : e.slot = s
  · subst hs
    cases acknowledged <;> simp
  · rw [if_neg hs, Log.accept_entries_ne _ _ (Ne.symm hs)]
    exact h s

theorem explains_interrupted {s : ℕ} {r : Option Entry} {history : List (Entry × Bool)}
    (h : Explains s r history) : Explains s r ((e, false) :: history) := by
  by_cases hs : e.slot = s
  · simp [Explains, hs, h]
  · simp [Explains, hs, h]

/-- The file explains itself, and the process holds what the file says. -/
structure Kept (json : Codec) (d : Durable) : Prop where
  file : ∀ s, Explains s ((replay json d.file).entries s) d.history
  log : ∀ l, d.log = some l → l = replay json d.file

variable {d d' : Durable}

theorem Kept.init (json : Codec) : Kept json Durable.init :=
  ⟨fun s => by simp [Durable.init, Explains, replay, scanLines, scan, Log.empty],
    by simp [Durable.init]⟩

theorem kept_step (h : Kept json d) {a : Action} (hok : onWholeFile d a = true)
    (hs : step json d a = some d') : Kept json d' := by
  cases a with
  | openLog =>
    simp only [step] at hs
    split at hs <;> [skip; simp at hs]
    obtain rfl := Option.some.inj hs
    exact ⟨h.file, fun l hl => (Option.some.inj hl).symm⟩
  | accept e =>
    have hw : byteEnds.Whole d.file := of_decide_eq_true hok
    simp only [step] at hs
    split at hs <;> [simp at hs; skip]
    rename_i l hl
    obtain rfl := Option.some.inj hs
    refine ⟨fun s => ?_, fun l' hl' => ?_⟩
    · rw [replay_append_line hw]
      exact explains_accept h.file true
    · rw [replay_append_line hw, ← h.log l hl]
      exact (Option.some.inj hl').symm
  | tear e k =>
    have hw : byteEnds.Whole d.file := of_decide_eq_true hok
    simp only [step] at hs
    split at hs <;> [simp at hs; skip]
    obtain rfl := Option.some.inj hs
    refine ⟨fun s => ?_, by simp⟩
    rcases replay_append_take hw e k with hr | hr <;> rw [hr]
    · exact explains_interrupted (h.file s)
    · exact explains_accept h.file false
  | crash =>
    simp only [step] at hs
    split at hs <;> [simp at hs; skip]
    obtain rfl := Option.some.inj hs
    exact ⟨h.file, by simp⟩

/-- **Acknowledged entries survive**: in every run in which nothing is accepted on a torn file,
`Log.Get` returns for every slot the entry of the last acknowledged `Accept`, or of a later one that
was interrupted. -/
theorem acknowledged_survives {acts : List Action}
    (hrun : Run (step json) onWholeFile Durable.init acts d) {l : Log} (hl : d.log = some l)
    (s : ℕ) : Explains s (l.entries s) d.history := by
  have h := hrun.invariant (fun _ _ _ h hok hs => kept_step h hok hs) (Kept.init json)
  rw [h.log l hl]
  exact h.file s

/-! ## The entries as JSON -/

/-- The fields of an entry under the names of their tags. -/
def toJson (e : Entry) : Json.Value :=
  .object [("slot", .number e.slot 0),
    ("ballot", .object [("num", .number e.ballot.num 0), ("node", .text e.ballot.node)]),
    ("command", .base64 e.command)]

def ofJson (v : Json.Value) : Option Entry := do
  let ballot ← v.read "ballot" some (.object [])
  return ⟨← v.read "slot" (·.asNat) 0,
    ⟨← ballot.read "num" (·.asNat) 0, ← ballot.read "node" (·.asText) ""⟩,
    ← v.read "command" (·.asBytes) []⟩

theorem ofJson_toJson (e : Entry) : ofJson (toJson e) = some e := by
  simp [ofJson, toJson, Json.Value.read_cons_of_ne]

example : String.ofList (toJson ⟨1, ⟨2, "n0"⟩, [120]⟩).put =
    "\x7b\"slot\":1,\"ballot\":\x7b\"num\":2,\"node\":\"n0\"\x7d,\"command\":\"eA==\"\x7d" := by
  decide +kernel

theorem named_toJson (e : Entry) : (toJson e).Named :=
  ⟨_, _, rfl, fun _ => rfl⟩

/-- The codec of the entry file. -/
def jsonCodec : Codec where
  encode e := Json.marshal (toJson e)
  decode raw := (Json.unmarshal raw).bind ofJson
  roundTrip e := by rw [Json.unmarshal_marshal, Option.bind_some, ofJson_toJson]
  oneLine e := by
    constructor <;> intro h <;> exact absurd (Json.le_of_mem_marshal h) (by decide)
  torn e p hp hne := by rw [Json.unmarshal_torn hp hne, Option.bind_none]
  merged e e' p hp hne := by
    rw [Json.unmarshal_merged hp hne (named_toJson e'), Option.bind_none]

/-- Two entries for different slots. -/
def first : Entry := ⟨1, ⟨1, "A"⟩, [120]⟩

def second : Entry := ⟨2, ⟨1, "A"⟩, [121]⟩

theorem acknowledged_survives_restart :
    ∃ d l, Run (step jsonCodec) onWholeFile Durable.init
        [.openLog, .accept first, .crash, .openLog] d ∧ d.log = some l ∧
      d.history = [(first, true)] ∧ Explains 1 (l.entries 1) d.history := by
  have hrun : Run (step jsonCodec) onWholeFile Durable.init
      [.openLog, .accept first, .crash, .openLog]
      ⟨line jsonCodec first, some (replay jsonCodec (line jsonCodec first)), [(first, true)]⟩ :=
    .cons rfl rfl (.cons rfl rfl (.cons rfl rfl (.cons rfl rfl (.nil _))))
  exact ⟨_, _, hrun, rfl, rfl, acknowledged_survives hrun rfl 1⟩

/-- The process dies when the first byte of `first` is written. `second` is acknowledged after the
restart and not found after the next one. -/
theorem acknowledged_lost :
    ∃ d l, Run (step jsonCodec) always Durable.init
        [.openLog, .tear first 1, .openLog, .accept second, .crash, .openLog] d ∧
      d.log = some l ∧ d.history = [(second, true), (first, false)] ∧
      ¬Explains 2 (l.entries 2) d.history := by
  have hrun : Run (step jsonCodec) always Durable.init
      [.openLog, .tear first 1, .openLog, .accept second, .crash, .openLog]
      ⟨[123] ++ line jsonCodec second,
        some (replay jsonCodec ([123] ++ line jsonCodec second)),
        [(second, true), (first, false)]⟩ :=
    .cons rfl rfl (.cons rfl rfl (.cons rfl rfl (.cons rfl rfl (.cons rfl rfl
      (.cons rfl rfl (.nil _))))))
  have hp : [123] <+: jsonCodec.encode first := ⟨_, rfl⟩
  have hlost : replay jsonCodec ([] ++ [123] ++ line jsonCodec second) = replay jsonCodec [] :=
    replay_append_torn (Or.inl rfl) hp (by simp) second
  refine ⟨_, _, hrun, rfl, rfl, ?_⟩
  rw [List.nil_append] at hlost
  rw [hlost]
  simp [Explains, second, replay, scanLines, scan, Log.empty]

end LogFile

end PaxosPayments.Paxos
