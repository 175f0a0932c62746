import Signpost.Machine.Framing

/-! # Framing of messages

Messages between signposts, and between a signpost and its tactic scripts, are
JSON objects on lines of their own. None of the three receivers keeps anything
between two chunks of data: each splits the chunk that it is passed into lines
and parses every line.

The JSON library is a parameter.
-/

namespace Signpost.Framing

open Machine

variable {μ : Type}

/-! ## JSON -/

/-- The result of `JSON.parse`: the parser raises, or returns a hash or an array. -/
inductive Parsed (μ : Type)
  | parserError
  | object (message : μ)
  | array
deriving DecidableEq

structure Json (μ : Type) where
  parse : List UInt8 → Parsed μ
  toJson : μ → List UInt8
  /-- The entry of a key is neither missing nor false. -/
  hasEntry : μ → String → Bool

def newline : UInt8 := 10

namespace Json

variable (json : Json μ)

/-- A printed hash parses to the hash and has no raw newline, and the empty text
does not parse. -/
structure Documented : Prop where
  parse_toJson : ∀ message, json.parse (json.toJson message) = .object message
  newline_not_mem : ∀ message, newline ∉ json.toJson message
  parse_nil : json.parse [] = .parserError

/-- A text inside a printed hash has fewer strings than the hash. -/
def FewerInside (strings : μ → ℕ) : Prop :=
  ∀ message text inner, text <:+: json.toJson message → text ≠ json.toJson message →
    json.parse text = .object inner → strings inner < strings message

def object? (text : List UInt8) : Option μ :=
  match json.parse text with
  | .object message => some message
  | .parserError => none
  | .array => none

end Json

/-! ## Senders and receivers -/

/-- Where a parsed hash goes. -/
inductive Handler
  | hiIAm
  | niceToMeetYou
  | receive
  | receivedData
  | handleInput
deriving DecidableEq, Repr

/-- An event of a receiver. A `TypeError` escapes from it and ends the process. -/
inductive Received (μ : Type)
  | dispatched (handler : Handler) (message : μ)
  | couldNotParse
  | typeError
deriving DecidableEq

/-- `"#{data.to_json}\n"`. -/
def line (json : Json μ) (message : μ) : List UInt8 := json.toJson message ++ [newline]

/-- Looking up a key in an array raises. -/
def receiveLines (json : Json μ) (handler : μ → Handler) : List (List UInt8) → List (Received μ)
  | [] => []
  | text :: rest =>
      match json.parse text with
      | .parserError => .couldNotParse :: receiveLines json handler rest
      | .object message => .dispatched (handler message) message :: receiveLines json handler rest
      | .array => [.typeError]

def receiveData (json : Json μ) (handler : μ → Handler) (data : List UInt8) : List (Received μ) :=
  receiveLines json handler (split newline data)

namespace CommsChannel

def send (json : Json μ) (message : μ) : List UInt8 := line json message

def handler (json : Json μ) (message : μ) : Handler :=
  if json.hasEntry message "hi_i_am" then .hiIAm
  else if json.hasEntry message "nice_to_meet_you_i_am" then .niceToMeetYou
  else .receive

def receiveData (json : Json μ) : List UInt8 → List (Received μ) :=
  Framing.receiveData json (handler json)

end CommsChannel

namespace TacticCommunicator

def passOnData (json : Json μ) (message : μ) : List UInt8 := line json message

def receiveData (json : Json μ) : List UInt8 → List (Received μ) :=
  Framing.receiveData json fun _ => .receivedData

end TacticCommunicator

namespace CommunicationManager

def relayData (json : Json μ) (message : μ) : List UInt8 := line json message

def receiveData (json : Json μ) : List UInt8 → List (Received μ) :=
  Framing.receiveData json fun _ => .handleInput

end CommunicationManager

/-- The ends of the connections at which messages are received. -/
inductive Endpoint
  | commsChannel
  | tacticCommunicator
  | communicationManager
deriving DecidableEq, Repr

namespace Endpoint

/-- What the other end writes for a message. -/
def written (json : Json μ) : Endpoint → μ → List UInt8
  | .commsChannel => CommsChannel.send json
  | .tacticCommunicator => CommunicationManager.relayData json
  | .communicationManager => TacticCommunicator.passOnData json

def receiveData (json : Json μ) : Endpoint → List UInt8 → List (Received μ)
  | .commsChannel => CommsChannel.receiveData json
  | .tacticCommunicator => TacticCommunicator.receiveData json
  | .communicationManager => CommunicationManager.receiveData json

def handler (json : Json μ) : Endpoint → μ → Handler
  | .commsChannel => CommsChannel.handler json
  | .tacticCommunicator => fun _ => .receivedData
  | .communicationManager => fun _ => .handleInput

theorem written_eq (json : Json μ) (endpoint : Endpoint) :
    endpoint.written json = line json := by
  cases endpoint <;> rfl

theorem receiveData_eq (json : Json μ) (endpoint : Endpoint) :
    endpoint.receiveData json = Framing.receiveData json (endpoint.handler json) := by
  cases endpoint <;> rfl

end Endpoint

def raised (received : List (Received μ)) : Bool :=
  received.any fun
    | .dispatched _ _ => false
    | .couldNotParse => false
    | .typeError => true

/-- The chunks of a stream are received one after another, until one raises. -/
def receiveChunks (receive : List UInt8 → List (Received μ)) :
    List (List UInt8) → List (Received μ)
  | [] => []
  | data :: rest =>
      if raised (receive data) then receive data else receive data ++ receiveChunks receive rest

def dispatchedBy (received : List (Received μ)) : List (Handler × μ) :=
  received.filterMap fun
    | .dispatched handler message => some (handler, message)
    | .couldNotParse => none
    | .typeError => none

/-- Exactly the messages are dispatched, each once and in order. -/
def DispatchesExactly (json : Json μ) (endpoint : Endpoint) (messages : List μ)
    (chunks : List (List UInt8)) : Prop :=
  dispatchedBy (receiveChunks (endpoint.receiveData json) chunks) =
    messages.map fun message => (endpoint.handler json message, message)

/-- However the written messages are cut, they are dispatched. -/
def ChunksIrrelevant (json : Json μ) (endpoint : Endpoint) : Prop :=
  ∀ (messages : List μ) (chunks : List (List UInt8)),
    chunks.flatten = messages.flatMap (endpoint.written json) →
      DispatchesExactly json endpoint messages chunks

/-! ## Lines of a stream -/

variable {json : Json μ} {handler : μ → Handler}

@[simp] theorem raised_dispatched (target : Handler) (message : μ) (received : List (Received μ)) :
    raised (.dispatched target message :: received) = raised received :=
  rfl

@[simp] theorem raised_couldNotParse (received : List (Received μ)) :
    raised (.couldNotParse :: received) = raised received :=
  rfl

@[simp] theorem raised_typeError (received : List (Received μ)) :
    raised (.typeError :: received) = true :=
  rfl

theorem receiveLines_append (first rest : List (List UInt8)) :
    receiveLines json handler (first ++ rest) =
      if raised (receiveLines json handler first) then receiveLines json handler first
      else receiveLines json handler first ++ receiveLines json handler rest := by
  induction first with
  | nil => rfl
  | cons text first ih =>
      cases hparse : json.parse text with
      | parserError =>
          by_cases hraised : raised (receiveLines json handler first) = true
          · simp [receiveLines, hparse, ih, hraised]
          · simp [receiveLines, hparse, ih, hraised]
      | object message =>
          by_cases hraised : raised (receiveLines json handler first) = true
          · simp [receiveLines, hparse, ih, hraised]
          · simp [receiveLines, hparse, ih, hraised]
      | array => simp [receiveLines, hparse]

theorem receiveChunks_eq (chunks : List (List UInt8)) :
    receiveChunks (receiveData json handler) chunks =
      receiveLines json handler (chunks.flatMap (split newline)) := by
  induction chunks with
  | nil => rfl
  | cons data rest ih => rw [receiveChunks, ih, List.flatMap_cons, receiveLines_append, receiveData]

/-- What is dispatched has been read from the lines. -/
theorem dispatchedBy_isPrefix (lines : List (List UInt8)) :
    dispatchedBy (receiveLines json handler lines) <+:
      (lines.filterMap json.object?).map fun message => (handler message, message) := by
  induction lines with
  | nil => exact List.prefix_rfl
  | cons text lines ih =>
      cases hparse : json.parse text with
      | parserError => simpa [receiveLines, dispatchedBy, Json.object?, hparse] using ih
      | object message => simpa [receiveLines, dispatchedBy, Json.object?, hparse] using ih
      | array => simp [receiveLines, dispatchedBy, hparse]

theorem dispatchedBy_eq {lines : List (List UInt8)}
    (hlines : ∀ text ∈ lines, json.parse text ≠ .array) :
    dispatchedBy (receiveLines json handler lines) =
      (lines.filterMap json.object?).map fun message => (handler message, message) := by
  induction lines with
  | nil => rfl
  | cons text lines ih =>
      obtain ⟨htext, hrest⟩ := List.forall_mem_cons.mp hlines
      replace ih := ih hrest
      cases hparse : json.parse text with
      | parserError => simpa [receiveLines, dispatchedBy, Json.object?, hparse] using ih
      | object message => simpa [receiveLines, dispatchedBy, Json.object?, hparse] using ih
      | array => exact absurd hparse htext

/-! ## Independence of the chunks -/

theorem filterMap_pieces (hnil : json.parse [] = .parserError) (chunks : List (List UInt8)) :
    (pieces newline chunks).filterMap json.object? =
      (chunks.flatMap (split newline)).filterMap json.object? := by
  rw [pieces, ← List.filter_flatMap, List.filterMap_filter]
  apply List.filterMap_congr
  intro text _
  cases text with
  | nil => simp [Json.object?, hnil]
  | cons first text => simp

variable [DecidableEq μ] {strings : μ → ℕ}

/-- Messages are dispatched as they were sent exactly when every chunk ends next to
a newline or at an end of the stream, for all three receivers. -/
theorem dispatchesExactly_iff (hjson : json.Documented) (hfewer : json.FewerInside strings)
    (endpoint : Endpoint) {messages : List μ} {chunks : List (List UInt8)}
    (hstream : chunks.flatten = messages.flatMap (endpoint.written json)) :
    DispatchesExactly json endpoint messages chunks ↔ Aligned newline chunks := by
  obtain ⟨hparse, hnewline, hnil⟩ := hjson
  have hframe : chunks.flatten = frame newline (messages.map json.toJson) := by
    rw [hstream, endpoint.written_eq, frame, List.flatMap_map]
    rfl
  have hobject : ∀ message, json.object? (json.toJson message) = some message := fun message => by
    rw [Json.object?, hparse]
  obtain ⟨parts, hpieces, hparts, haligned⟩ := exists_parts hframe fun text htext => by
    obtain ⟨message, _, rfl⟩ := List.mem_map.mp htext
    exact hnewline message
  rw [DispatchesExactly, endpoint.receiveData_eq, receiveChunks_eq, haligned]
  constructor
  · intro hdispatched
    apply whole_of_read (List.forall₂_map_left_iff.mp hparts) hobject
    · rw [Json.object?, hnil]
    · intro message text inner hinside hproper hread
      apply hfewer message text inner hinside hproper
      unfold Json.object? at hread
      split at hread
      next found hfound => rwa [← Option.some.inj hread]
      next => cases hread
      next => cases hread
    · -- the handlers may be forgotten, the messages were read in this order
      have hinitial : dispatchedBy (receiveLines json (endpoint.handler json)
          (chunks.flatMap (split newline))) <+:
            ((chunks.flatMap (split newline)).filterMap json.object?).map
              fun message => (endpoint.handler json message, message) :=
        dispatchedBy_isPrefix _
      rw [hdispatched] at hinitial
      have hmessages := hinitial.map Prod.snd
      simp only [List.map_map, Function.comp_def, List.map_id'] at hmessages
      rw [← filterMap_pieces hnil, hpieces] at hmessages
      exact hmessages.sublist
  · intro hwhole
    have hempty : [] ∉ messages.map json.toJson := by
      intro hmem
      obtain ⟨message, _, hprints⟩ := List.mem_map.mp hmem
      have hobjectNil := hobject message
      rw [hprints, Json.object?, hnil] at hobjectNil
      cases hobjectNil
    rw [flatten_of_whole hparts hwhole hempty] at hpieces
    rw [dispatchedBy_eq, ← filterMap_pieces hnil, hpieces, List.filterMap_map]
    · simp [hobject]
    · -- no line is an array, since it is empty or a message
      intro text htext harray
      have hne : text ≠ [] := by
        rintro rfl
        rw [hnil] at harray
        cases harray
      have hpiece : text ∈ pieces newline chunks := by
        rw [pieces, ← List.filter_flatMap, List.mem_filter]
        exact ⟨htext, by simpa using hne⟩
      rw [hpieces] at hpiece
      obtain ⟨message, _, rfl⟩ := List.mem_map.mp hpiece
      rw [hparse] at harray
      cases harray

/-! ## A message in two chunks -/

def text (ascii : String) : List UInt8 := ascii.toList.map fun c => UInt8.ofNat c.toNat

/-- The messages of a script that asks for nothing. -/
inductive Hint
  | recycle
  | log
deriving DecidableEq

def Hint.toJson : Hint → List UInt8
  | .recycle => text "\x7b\"recycle\":true\x7d"
  | .log => text "\x7b\"logs\":[]\x7d"

def hints : Json Hint where
  parse data :=
    if data = Hint.toJson .recycle then .object .recycle
    else if data = Hint.toJson .log then .object .log
    else .parserError
  toJson := Hint.toJson
  hasEntry := fun hint key =>
    match hint with
    | .recycle => key = "recycle"
    | .log => key = "logs"

theorem documented_hints : hints.Documented where
  parse_toJson := by
    intro message
    cases message <;> decide
  newline_not_mem := by
    intro message
    cases message <;> decide
  parse_nil := by decide

theorem fewerInside_hints : hints.FewerInside fun hint => (hints.toJson hint).length := by
  intro message data inner hinside hproper hparse
  have hprints : data = hints.toJson inner := by
    unfold hints at hparse
    simp only at hparse
    split at hparse
    next heq => cases hparse; exact heq
    next =>
      split at hparse
      next heq => cases hparse; exact heq
      next => cases hparse
  subst hprints
  exact Nat.lt_of_le_of_ne hinside.length_le fun hlength => hproper (hinside.eq_of_length hlength)

/-- Two messages are received together, but for the last newline. -/
def alignedChunks : List (List UInt8) :=
  [line hints .recycle ++ Hint.toJson .log, [newline]]

theorem dispatchesExactly_iff_hints :
    DispatchesExactly hints .tacticCommunicator [.recycle, .log] alignedChunks ↔
      Aligned newline alignedChunks :=
  dispatchesExactly_iff documented_hints fewerInside_hints .tacticCommunicator (by decide)

def cutChunks : List (List UInt8) :=
  [text "\x7b\"recy", text "cle\":true\x7d\n"]

theorem not_chunksIrrelevant_cut :
    ¬ ChunksIrrelevant hints .commsChannel ∧ ¬ ChunksIrrelevant hints .tacticCommunicator ∧
      ¬ ChunksIrrelevant hints .communicationManager := by
  have hcut : ∀ endpoint : Endpoint,
      cutChunks.flatten = [Hint.recycle].flatMap (endpoint.written hints) := by
    intro endpoint
    rw [endpoint.written_eq]
    decide
  refine ⟨fun hclaim => ?_, fun hclaim => ?_, fun hclaim => ?_⟩
  · exact absurd (hclaim [.recycle] cutChunks (hcut _)) (by unfold DispatchesExactly; decide)
  · exact absurd (hclaim [.recycle] cutChunks (hcut _)) (by unfold DispatchesExactly; decide)
  · exact absurd (hclaim [.recycle] cutChunks (hcut _)) (by unfold DispatchesExactly; decide)

end Signpost.Framing
