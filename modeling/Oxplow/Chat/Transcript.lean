import Oxplow.Jobs.CanonicalJson
import Oxplow.Library.Machine
import Oxplow.Library.Readers

/-! `chat/transcript.rs`: a chat session's conversation, a capped ring of items that clients
poll. -/

namespace Oxplow.Chat
open Jobs Library

inductive ToolKind where
  | read
  | edit
  | delete
  | move
  | search
  | execute
  | think
  | fetch
  | switchMode
  | subagent
  | other

inductive ToolStatus where
  | pending
  | inProgress
  | completed
  | failed

structure ToolDiff where
  path : String
  oldText : Option String
  newText : String

structure ToolCall where
  id : String
  title : String
  name : Option String
  kind : ToolKind
  status : ToolStatus
  locations : List String
  rawInput : Option Json
  rawOutput : Option Json
  diffs : List ToolDiff
  text : List String
  auditId : Option Int

/-- The fields that a `tool_call_update` changes. -/
structure ToolCallPatch where
  id : String
  title : Option String
  name : Option String
  kind : Option ToolKind
  status : Option ToolStatus
  locations : Option (List String)
  rawInput : Option Json
  rawOutput : Option Json
  diffs : Option (List ToolDiff)
  text : Option (List String)

namespace ToolCall

def apply (call : ToolCall) (p : ToolCallPatch) : ToolCall :=
  { call with
    title := p.title.getD call.title, name := p.name.or call.name, kind := p.kind.getD call.kind, status := p.status.getD call.status
    locations := p.locations.getD call.locations, rawInput := p.rawInput.or call.rawInput, rawOutput := p.rawOutput.or call.rawOutput
    diffs := p.diffs.getD call.diffs, text := p.text.getD call.text }

/-- A call first seen as an update. -/
def fromPatch (p : ToolCallPatch) : ToolCall := apply ⟨p.id, "", none, .other, .pending, [], none, none, [], [], none⟩ p

end ToolCall

inductive PlanStatus where
  | pending
  | inProgress
  | completed

structure PlanEntry where
  content : String
  status : PlanStatus

structure ContextUsage where
  used : Nat
  size : Nat
  costAmount : Option Float
  costCurrency : Option String

inductive PermissionKind where
  | allowOnce
  | allowAlways
  | rejectOnce
  | rejectAlways

structure PermissionOption where
  id : String
  name : String
  kind : PermissionKind

inductive PermissionAnswer where
  | selected (optionId : String)
  | cancelled

/-- One `session/update`. -/
inductive ChatUpdate where
  | userChunk (text : String)
  | agentChunk (text : String)
  | thoughtChunk (text : String)
  | toolCall (call : ToolCall)
  | toolCallUpdate (patch : ToolCallPatch)
  | plan (entries : List PlanEntry)
  | usage (usage : ContextUsage)
  | ignored

inductive ItemBody where
  | user (text : String) (context : Option String)
  | agent (text : String)
  | thought (text : String)
  | tool (call : ToolCall)
  | plan (entries : List PlanEntry)
  | permission (requestId toolCallId title : String) (options : List PermissionOption) (answer : Option PermissionAnswer)
  | policyDenied (toolCallId label reason : String)
  | bypass (toolCallId label reason : String)
  | error (message : String)

structure TranscriptItem where
  id : Nat
  seq : Nat
  body : ItemBody

structure Transcript where
  items : List TranscriptItem
  cap : Nat
  nextId : Nat
  seq : Nat
  usage : Option ContextUsage
  /-- The ring has room for an item. -/
  room : 0 < cap

inductive Chunk where
  | user
  | agent
  | thought

/-- What people and agents said is text that chunks can join. -/
def ItemBody.said : ItemBody → Option String
  | .user text _ | .agent text | .thought text => some text
  | _ => none

/-- The item takes chunks of the kind. -/
def ItemBody.takes : ItemBody → Chunk → Bool
  | .user _ _, .user | .agent _, .agent | .thought _, .thought => true
  | _, _ => false

def ItemBody.pushStr (b : ItemBody) (chunk : String) : ItemBody :=
  match b with
  | .user text context => .user (text ++ chunk) context
  | .agent text => .agent (text ++ chunk)
  | .thought text => .thought (text ++ chunk)
  | other => other

def ItemBody.patched (b : ItemBody) (p : ToolCallPatch) : ItemBody :=
  match b with
  | .tool call => .tool (call.apply p)
  | other => other

def Chunk.body : Chunk → String → ItemBody
  | .user, text => .user text none
  | .agent, text => .agent text
  | .thought, text => .thought text

/-- The first item with the id, changed. -/
def replace (items : List TranscriptItem) (id : Nat) (item : TranscriptItem) : List TranscriptItem :=
  match items with
  | [] => []
  | i :: rest => if i.id = id then item :: rest else i :: replace rest id item

namespace Transcript

def new (cap : Nat) : Transcript := ⟨[], max cap 1, 1, 0, none, by omega⟩

/-- Items created or changed after `seq`, oldest first. -/
def since (t : Transcript) (seq : Nat) : List TranscriptItem := Polling.since TranscriptItem.seq t.items seq

def push (t : Transcript) (body : ItemBody) : Transcript × TranscriptItem :=
  let item := ⟨t.nextId, t.seq + 1, body⟩
  let items := t.items ++ [item]
  ({ t with items := items.drop (items.length - t.cap), nextId := t.nextId + 1, seq := t.seq + 1 }, item)

def update (t : Transcript) (id : Nat) (f : ItemBody → ItemBody) : Transcript × Option TranscriptItem :=
  match t.items.find? (·.id == id) with
  | none => (t, none)
  | some old =>
    let item := ⟨old.id, t.seq + 1, f old.body⟩
    ({ t with items := replace t.items id item, seq := t.seq + 1 }, some item)

def toolItemId (t : Transcript) (toolCallId : String) : Option Nat :=
  t.items.reverse.findSome? fun i =>
    match i.body with
    | .tool call => if call.id = toolCallId then some i.id else none
    | _ => none

/-- The latest plan after the latest user message. -/
def currentPlanId (t : Transcript) : Option Nat :=
  (t.items.reverse.takeWhile fun i => match i.body with | .user _ _ => false | _ => true).findSome? fun i =>
    match i.body with
    | .plan _ => some i.id
    | _ => none

def pushed (t : Transcript) (body : ItemBody) : Transcript × Option TranscriptItem := ((t.push body).1, some (t.push body).2)

def chunk (t : Transcript) (text : String) (kind : Chunk) : Transcript × Option TranscriptItem :=
  match t.items.getLast?.filter fun i => i.body.takes kind with
  | some last =>
    match t.update last.id (·.pushStr text) with
    | (next, some item) => (next, some item)
    | (next, none) => next.pushed (kind.body text)
  | none => t.pushed (kind.body text)

/-- Folds one update in, with the item created or changed. -/
def apply (t : Transcript) : ChatUpdate → Transcript × Option TranscriptItem
  | .userChunk text => t.chunk text .user
  | .agentChunk text => t.chunk text .agent
  | .thoughtChunk text => t.chunk text .thought
  | .toolCall call =>
    match t.toolItemId call.id with
    | some id => t.update id fun _ => .tool call
    | none => t.pushed (.tool call)
  | .toolCallUpdate p =>
    match t.toolItemId p.id with
    | some id => t.update id (·.patched p)
    | none => t.pushed (.tool (.fromPatch p))
  | .plan entries =>
    match t.currentPlanId with
    | some id => t.update id fun _ => .plan entries
    | none => t.pushed (.plan entries)
  | .usage u => ({ t with usage := some u }, none)
  | .ignored => (t, none)

end Transcript

/-- A call on the transcript, or a client's read. -/
inductive Event where
  | push (body : ItemBody)
  | update (id : Nat) (f : ItemBody → ItemBody)
  | apply (u : ChatUpdate)
  | read

/-- A transcript and one of its clients. -/
structure Session where
  transcript : Transcript
  client : Polling.Reader TranscriptItem Nat

namespace Session

def start (cap : Nat) : Session := ⟨.new cap, .empty⟩

/-- A step, with the item created or changed. -/
def step (s : Session) : Event → Option (Session × Option TranscriptItem)
  | .push body => some ({ s with transcript := (s.transcript.pushed body).1 }, (s.transcript.pushed body).2)
  | .update id f => some ({ s with transcript := (s.transcript.update id f).1 }, (s.transcript.update id f).2)
  | .apply u => some ({ s with transcript := (s.transcript.apply u).1 }, (s.transcript.apply u).2)
  | .read => some ({ s with client := s.client.poll TranscriptItem.id TranscriptItem.seq s.transcript.items }, none)

end Session

end Oxplow.Chat
