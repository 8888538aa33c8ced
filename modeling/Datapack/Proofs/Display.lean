import Mathlib.Data.Option.Basic
import Mathlib.Data.List.Chain
import Mathlib.Data.List.TakeWhile
import Datapack.Proofs.CompileStep

/-!
Messages. What is shown of a value does not depend on what the compiler knew of it: the message for a value with parts
that are kept somewhere, shown while these hold certain words and texts, reads like the text of the value with these
words and texts in their places. Known texts next to each other are one piece of the message.
-/

namespace Datapack

open List

abbrev Texts := Path → String

variable {cells : Cell → Int32} {data : Texts}

namespace Json

/-- What is seen of one piece of a message: plain texts as they are, words in decimal notation, and stored texts. -/
def pieceText (s : Settings) (cells : Cell → Int32) (data : Texts) : Json → String
  | .string text | .object [("text", .string text)] => text
  | .object [("score", .object [("name", .string name), ("objective", .string objective)])] =>
    if objective = s.objective then Word.text (cells ⟨name⟩) else ""
  | .object [("nbt", .string path), ("storage", .string storage)] =>
    if storage = s.storageName then data ⟨path⟩ else ""
  | _ => ""

def pieces : Json → List Json
  | .array items => items
  | _ => []

def messageText (s : Settings) (cells : Cell → Int32) (data : Texts) (message : Json) : String :=
  String.join (message.pieces.map (pieceText s cells data))

def IsText : Json → Prop
  | .object [("text", _)] => True
  | _ => False

end Json

namespace Component

def reading (cells : Cell → Int32) (data : Texts) : Component → String
  | .plain text => text
  | .score cell => Word.text (cells cell)
  | .data path => data path

def IsPlain : Component → Prop
  | .plain _ => True
  | _ => False

def Separated (components : List Component) : Prop := components.IsChain fun a b => ¬ (a.IsPlain ∧ b.IsPlain)

def readingAll (cells : Cell → Int32) (data : Texts) (seen : List Component) : String :=
  String.join (seen.reverse.map (reading cells data))

variable {seen : List Component}

theorem readingAll_cons (c : Component) :
    readingAll cells data (c :: seen) = readingAll cells data seen ++ c.reading cells data := by
  simp [readingAll]

theorem readingAll_addPlain (text : String) :
    readingAll cells data (addPlain text seen) = readingAll cells data seen ++ text := by
  unfold addPlain
  split
  · rw [readingAll_cons, readingAll_cons, reading, reading, String.append_assoc]
  · rw [readingAll_cons, reading]

theorem Separated.addPlain (h : Separated seen) (text : String) : Separated (addPlain text seen) := by
  cases seen with
  | nil => exact isChain_singleton _
  | cons last rest =>
    cases last with
    | plain before =>
      cases rest with
      | nil => exact isChain_singleton _
      | cons next rest => exact isChain_cons_cons.mpr (isChain_cons_cons.mp h)
    | score _ | data _ => exact isChain_cons_cons.mpr ⟨And.right, h⟩

theorem Separated.cons (h : Separated seen) {c : Component} (hc : ¬ c.IsPlain) : Separated (c :: seen) := by
  cases seen with
  | nil => exact isChain_singleton _
  | cons next rest => exact isChain_cons_cons.mpr ⟨fun hboth => hc hboth.1, h⟩

end Component

open Component

/-- Whether a step adds components that read as given, writes nothing, and leaves plain texts separated. -/
def ShowsAs (step : List Component → ExceptT Kind Emit (List Component))
    (text : (Cell → Int32) → Texts → String) : Prop :=
  ∀ seen, ∃ components, (∀ e, (step seen).run e = (.ok components, e)) ∧
    (∀ cells data, readingAll cells data components = readingAll cells data seen ++ text cells data) ∧
    (Separated seen → Separated components)

namespace ShowsAs

variable {f g : List Component → ExceptT Kind Emit (List Component)} {s t : (Cell → Int32) → Texts → String}

theorem of_eq (h : ShowsAs f s) (hf : ∀ seen, g seen = f seen) (hs : ∀ cells data, t cells data = s cells data) :
    ShowsAs g t := by
  obtain rfl : g = f := funext hf
  obtain rfl : t = s := funext fun cells => funext (hs cells)
  exact h

theorem nothing : ShowsAs (fun seen => return seen) fun _ _ => "" :=
  fun seen => ⟨seen, fun _ => rfl, by simp, id⟩

theorem plain (text : String) : ShowsAs (fun seen => return addPlain text seen) fun _ _ => text :=
  fun seen => ⟨addPlain text seen, fun _ => rfl, fun _ _ => readingAll_addPlain text, (·.addPlain text)⟩

theorem place {c : Component} (hc : ¬ c.IsPlain) :
    ShowsAs (fun seen => return c :: seen) fun cells data => c.reading cells data :=
  fun seen => ⟨c :: seen, fun _ => rfl, fun _ _ => readingAll_cons c, (·.cons hc)⟩

theorem bind (hf : ShowsAs f s) (hg : ShowsAs g t) :
    ShowsAs (fun seen => f seen >>= g) fun cells data => s cells data ++ t cells data := by
  intro seen
  obtain ⟨components, hrun, htext, hseparated⟩ := hf seen
  obtain ⟨more, hrun', htext', hseparated'⟩ := hg components
  refine ⟨more, fun e => ?_, fun cells data => ?_, hseparated' ∘ hseparated⟩
  · have hbind : (f seen >>= g).run e = ExceptT.bindCont g ((f seen).run e).1 ((f seen).run e).2 := rfl
    rw [hbind, hrun]
    exact hrun' e
  · rw [htext', htext, String.append_assoc]

end ShowsAs

namespace Value

mutual

/-- A value with everything that is kept in cells and paths replaced by the words and texts that are found there. -/
def settled (cells : Cell → Int32) (data : Texts) : Value → Value
  | .number (.dynamic cell _) => .number (.static (cells cell))
  | .string (.dynamic path _) => .string (.static (data path))
  | .struct id name fields => .struct id name (settledFields cells data fields)
  | .array items => .array (settledItems cells data items)
  | value => value

def settledFields (cells : Cell → Int32) (data : Texts) : List (String × Value) → List (String × Value)
  | [] => []
  | (name, value) :: rest => (name, settled cells data value) :: settledFields cells data rest

def settledItems (cells : Cell → Int32) (data : Texts) : List Value → List Value
  | [] => []
  | value :: rest => settled cells data value :: settledItems cells data rest

end

/-- Whether a value is made of numbers and texts, and of known truth values, fixed-point numbers and null. -/
inductive Printable : Value → Prop
  | number (d : Datum Int32 Cell) : Printable (.number d)
  | string (d : Datum String Path) : Printable (.string d)
  | bool (b : Bool) : Printable (.bool (.static b))
  | fixed (n : Int32) : Printable (.fixed (.static n))
  | null : Printable .null
  | struct {id name fields} : (∀ x ∈ fields, Printable x.2) → Printable (.struct id name fields)
  | array {items} : (∀ v ∈ items, Printable v) → Printable (.array items)

/-- Whether the message for a value reads like its text, whatever is found in cells and at paths. -/
def Faithful (v : Value) (text : (Cell → Int32) → Texts → String) : Prop :=
  ShowsAs (display · v) text ∧ ∀ cells data, (v.settled cells data).literalText? = some (text cells data)

def listed (first : Bool) : List String → String
  | [] => ""
  | text :: rest => (if first then "" else ", ") ++ text ++ listed false rest

theorem listed_cons (first : Bool) (text : String) (rest : List String) :
    listed first (text :: rest) = (if first then "" else ", ") ++ String.intercalate ", " (text :: rest) := by
  induction rest generalizing first text with
  | nil => simp [listed]
  | cons next rest ih =>
    rw [listed, ih, String.intercalate_cons_cons]
    simp [String.append_assoc]

theorem listed_true (texts : List String) : listed true texts = String.intercalate ", " texts := by
  cases texts with
  | nil => rfl
  | cons text rest => simp [listed_cons]

mutual

theorem settled_of_isFullyStatic : ∀ v : Value, v.isFullyStatic = true → v.settled cells data = v
  | .number (.static _), _ | .string (.static _), _ | .bool _, _ | .fixed _, _ | .null, _ | .structType _ _, _
  | .builtin _, _ | .function _, _ => rfl
  | .struct id name fields, h => by rw [settled, settledFields_of_static fields h]
  | .array items, h => by rw [settled, settledItems_of_static items h]

theorem settledFields_of_static : ∀ fields, allFieldsStatic fields = true → settledFields cells data fields = fields
  | [], _ => rfl
  | (name, value) :: rest, h => by
    obtain ⟨hvalue, hrest⟩ := Bool.and_eq_true_iff.mp h
    rw [settledFields, settled_of_isFullyStatic value hvalue, settledFields_of_static rest hrest]

theorem settledItems_of_static : ∀ items, allStatic items = true → settledItems cells data items = items
  | [], _ => rfl
  | value :: rest, h => by
    obtain ⟨hvalue, hrest⟩ := Bool.and_eq_true_iff.mp h
    rw [settledItems, settled_of_isFullyStatic value hvalue, settledItems_of_static rest hrest]

end

variable {v : Value}

theorem shows_literal {text : (Cell → Int32) → Texts → String} (hstatic : v.isFullyStatic = true)
    (htext : ∀ cells data, (v.settled cells data).literalText? = some (text cells data)) :
    ShowsAs (displayLiteral · v) text := by
  have hliteral : ∀ cells data, v.literalText? = some (text cells data) := fun cells data => by
    rw [← htext cells data, settled_of_isFullyStatic v hstatic]
  have hknown := hliteral (fun _ => 0) fun _ => ""
  refine (ShowsAs.plain (text (fun _ => 0) fun _ => "")).of_eq (fun seen => ?_) fun cells data => ?_
  · rw [displayLiteral, hknown]
  · exact Option.some.inj ((hliteral cells data).symm.trans hknown)

theorem shows_fields {fields : List (String × Value)} (h : ∀ x ∈ fields, ∃ text, x.2.Faithful text) :
    ∃ texts : (Cell → Int32) → Texts → List String,
      (∀ first, ShowsAs (displayFields first · fields) fun cells data => listed first (texts cells data)) ∧
      ∀ cells data, fieldTexts? (settledFields cells data fields) = some (texts cells data) := by
  induction fields with
  | nil => exact ⟨fun _ _ => [], fun _ => .nothing, fun _ _ => rfl⟩
  | cons field rest ih =>
    obtain ⟨⟨text, hshows, htext⟩, hrest⟩ := forall_mem_cons.mp h
    obtain ⟨texts, hshowsAll, htexts⟩ := ih hrest
    refine ⟨fun cells data => (field.1 ++ ": " ++ text cells data) :: texts cells data, fun first => ?_, fun cells data => ?_⟩
    · have hall := ((ShowsAs.plain ((if first then "" else ", ") ++ field.1 ++ ": ")).bind hshows).bind (hshowsAll false)
      refine hall.of_eq (fun seen => ?_) fun _ _ => by simp [listed, String.append_assoc]
      rw [displayFields]
      rfl
    · rw [settledFields, fieldTexts?, htext, htexts]

theorem shows_items {items : List Value} (h : ∀ v ∈ items, ∃ text, v.Faithful text) :
    ∃ texts : (Cell → Int32) → Texts → List String,
      (∀ first, ShowsAs (displayItems first · items) fun cells data => listed first (texts cells data)) ∧
      ∀ cells data, itemTexts? (settledItems cells data items) = some (texts cells data) := by
  induction items with
  | nil => exact ⟨fun _ _ => [], fun _ => .nothing, fun _ _ => rfl⟩
  | cons item rest ih =>
    obtain ⟨⟨text, hshows, htext⟩, hrest⟩ := forall_mem_cons.mp h
    obtain ⟨texts, hshowsAll, htexts⟩ := ih hrest
    refine ⟨fun cells data => text cells data :: texts cells data, fun first => ?_, fun cells data => ?_⟩
    · cases first with
      | true =>
        refine (hshows.bind (hshowsAll false)).of_eq (fun seen => ?_) fun _ _ => by simp [listed]
        rw [displayItems]
        rfl
      | false =>
        refine (((ShowsAs.plain ", ").bind hshows).bind (hshowsAll false)).of_eq (fun seen => ?_) fun _ _ => by simp [listed]
        rw [displayItems]
        rfl
    · rw [settledItems, itemTexts?, htext, htexts]

theorem Printable.faithful (h : v.Printable) : ∃ text, v.Faithful text := by
  induction h with
  | number d =>
    cases d with
    | static n => exact ⟨_, .plain (Word.text n), fun _ _ => rfl⟩
    | dynamic cell _ => exact ⟨_, .place (c := .score cell) id, fun _ _ => rfl⟩
  | string d =>
    cases d with
    | static s => exact ⟨_, .plain s, fun _ _ => rfl⟩
    | dynamic path _ => exact ⟨_, .place (c := .data path) id, fun _ _ => rfl⟩
  | bool b => exact ⟨_, .plain (if b then "true" else "false"), fun _ _ => rfl⟩
  | fixed n => exact ⟨_, .plain (Fixed.text n), fun _ _ => rfl⟩
  | null => exact ⟨_, .plain "null", fun _ _ => rfl⟩
  | @struct id name fields _ ih =>
    obtain ⟨texts, hshows, htexts⟩ := shows_fields ih
    have htext : ∀ cells data, literalText? (settled cells data (.struct id name fields)) =
        some (name ++ "(" ++ String.intercalate ", " (texts cells data) ++ ")") := fun cells data => by
      rw [settled, literalText?, htexts]
    refine ⟨_, ?_, htext⟩
    by_cases hstatic : isFullyStatic (.struct id name fields) = true
    · exact (shows_literal hstatic htext).of_eq (fun seen => by rw [display, if_pos hstatic]) fun _ _ => rfl
    · have hall := ((ShowsAs.plain (name ++ "(")).bind (hshows true)).bind (.plain ")")
      refine hall.of_eq (fun seen => ?_) fun cells data => by rw [listed_true]
      rw [display, if_neg hstatic]
      rfl
  | @array items _ ih =>
    obtain ⟨texts, hshows, htexts⟩ := shows_items ih
    have htext : ∀ cells data, literalText? (settled cells data (.array items)) =
        some ("[" ++ String.intercalate ", " (texts cells data) ++ "]") := fun cells data => by
      rw [settled, literalText?, htexts]
    refine ⟨_, ?_, htext⟩
    by_cases hstatic : isFullyStatic (.array items) = true
    · exact (shows_literal hstatic htext).of_eq (fun seen => by rw [display, if_pos hstatic]) fun _ _ => rfl
    · have hall := ((ShowsAs.plain "[").bind (hshows true)).bind (.plain "]")
      refine hall.of_eq (fun seen => ?_) fun cells data => by rw [listed_true]
      rw [display, if_neg hstatic]
      rfl

theorem shows_displayAll {Q : Value → ((Cell → Int32) → Texts → String) → Prop} {values : List Value}
    (h : ∀ v ∈ values, ∃ text, ShowsAs (display · v) text ∧ Q v text) :
    ∃ texts, Forall₂ Q values texts ∧
      ∀ seen, ∃ components, (∀ e, (displayAll seen values).run e = (.ok components.reverse, e)) ∧
        (∀ cells data, readingAll cells data components =
          readingAll cells data seen ++ String.join (texts.map fun text => text cells data)) ∧
        (Separated seen → Separated components) := by
  induction values with
  | nil => exact ⟨[], .nil, fun seen => ⟨seen, fun _ => rfl, by simp, id⟩⟩
  | cons v rest ih =>
    obtain ⟨⟨text, hshows, htext⟩, hrest⟩ := forall_mem_cons.mp h
    obtain ⟨texts, htexts, hall⟩ := ih hrest
    refine ⟨text :: texts, .cons htext htexts, fun seen => ?_⟩
    obtain ⟨first, hrun, hreading, hseparated⟩ := hshows seen
    obtain ⟨components, hrun', hreading', hseparated'⟩ := hall first
    refine ⟨components, fun e => ?_, fun cells data => ?_, hseparated' ∘ hseparated⟩
    · have hbind : (displayAll seen (v :: rest)).run e =
          ExceptT.bindCont (displayAll · rest) ((v.display seen).run e).1 ((v.display seen).run e).2 := rfl
      rw [hbind, hrun]
      exact hrun' e
    · rw [hreading', hreading, String.append_assoc, map_cons, String.join_cons]

theorem displayAll_eq {values : List Value} (h : ∀ v ∈ values, v.Printable) :
    ∃ texts : (Cell → Int32) → Texts → List String,
      (∀ cells data, values.map (fun v => (v.settled cells data).literalText?) = (texts cells data).map some) ∧
      ∀ seen, ∃ components, (∀ e, (displayAll seen values).run e = (.ok components.reverse, e)) ∧
        (∀ cells data, readingAll cells data components = readingAll cells data seen ++ String.join (texts cells data)) ∧
        (Separated seen → Separated components) := by
  obtain ⟨texts, htexts, hall⟩ := shows_displayAll fun v hv => (h v hv).faithful
  refine ⟨fun cells data => texts.map fun text => text cells data, fun cells data => ?_, hall⟩
  rw [map_map, ← forall₂_eq_eq_eq, forall₂_map_left_iff, forall₂_map_right_iff]
  exact htexts.imp fun _ _ h => h cells data

end Value

theorem Component.pieceText_json (s : Settings) (c : Component) :
    (c.json s).pieceText s cells data = c.reading cells data := by
  cases c with
  | plain text => rfl
  | score cell | data path => simp [json, Json.pieceText, reading]

theorem Component.messageText_message (s : Settings) (seen : List Component) :
    (message s seen.reverse).messageText s cells data = readingAll cells data seen := by
  have hpieces : (seen.reverse.map (json s)).map (Json.pieceText s cells data) = seen.reverse.map (reading cells data) := by
    rw [map_map]
    exact map_congr_left fun c _ => pieceText_json s c
  rw [message, Json.messageText, Json.pieces, map_cons, hpieces, String.join_cons, readingAll]
  exact String.empty_append

theorem Component.Separated.message {seen : List Component} (h : Separated seen) (s : Settings) :
    (Component.message s seen.reverse).pieces.IsChain fun a b => ¬ (a.IsText ∧ b.IsText) := by
  have htext : ∀ c : Component, (c.json s).IsText → c.IsPlain := fun c => by cases c <;> simp [json, Json.IsText, IsPlain]
  have hchain : (seen.reverse.map (json s)).IsChain fun a b => ¬ (a.IsText ∧ b.IsText) := by
    rw [isChain_map, isChain_reverse]
    exact h.imp fun a b hnot hboth => hnot ⟨htext a hboth.2, htext b hboth.1⟩
  rw [Component.message, Json.pieces]
  cases hmap : seen.reverse.map (json s) with
  | nil => exact isChain_singleton _
  | cons first rest => exact isChain_cons_cons.mpr ⟨fun hboth => hboth.1, hmap ▸ hchain⟩

theorem Signature.matchArgs_print (args : List Value) : Builtin.print.signature.matchArgs args = .ok [.many args] := by
  have hstatic : ∀ (p : Parameter) (values : List Value), p.accepts = .any → p.checkAllStaticness values = .ok () := by
    intro p values hp
    induction values with
    | nil => rfl
    | cons v rest ih =>
      rw [Parameter.checkAllStaticness, Parameter.checkStaticness, hp]
      exact ih
  have htaken : args.takeWhile (Parameter.fits { name := "values", kind := .any, arity := .zeroOrMore }) = args :=
    takeWhile_eq_self_iff.mpr fun _ _ => rfl
  have hrest : args.dropWhile (Parameter.fits { name := "values", kind := .any, arity := .zeroOrMore }) = [] :=
    dropWhile_eq_nil_iff.mpr fun _ _ => rfl
  rw [matchArgs, show Builtin.print.signature.params = [_] from rfl, distribute.eq_def]
  simp [htaken, hrest, hstatic, Parameter.gather, distribute]
  rfl

namespace Compile

/-- Showing values writes one message. Its text is made of the texts of the values with the words and texts in them that
are found in cells and at paths when it is shown, and no two neighbouring pieces of it are plain texts. -/
theorem print_shows_values {values : List Value} (h : ∀ v ∈ values, v.Printable) (span : Span) (env : Environment)
    (s : CompilerState) : ∃ message : Json,
      (callBuiltin .print values span).Yields env s .null
        { s with draft := s.draft.append { Node.leaf (.tellraw message) with location := some s.location } } ∧
      message.pieces.IsChain (fun a b => ¬ (a.IsText ∧ b.IsText)) ∧
      ∀ cells data, ∃ texts, values.map (fun v => (v.settled cells data).literalText?) = texts.map some ∧
        message.messageText env.settings cells data = String.join texts := by
  obtain ⟨texts, htexts, hall⟩ := Value.displayAll_eq h
  obtain ⟨components, hrun, hreading, hseparated⟩ := hall []
  refine ⟨Component.message env.settings components.reverse, ?_, (hseparated List.isChain_nil).message _,
    fun cells data => ⟨texts cells data, htexts cells data, ?_⟩⟩
  · rw [callBuiltin, matchCall, Signature.matchArgs_print]
    simp only [pure_bind, runBuiltin, printValues, List.flatMap_singleton, Argument.values]
    refine yields_bind.mpr ⟨(), _, yields_bind.mpr ⟨.ok components.reverse, s, ?_, ?_⟩, yields_pure.mpr ⟨rfl, rfl⟩⟩
    · exact yields_emitting.mpr ⟨{ nextTemporary := s.nextTemporary }, hrun _, rfl⟩
    · simp only [yields_bind, yields_read, yields_emit]
      exact ⟨_, _, ⟨rfl, rfl⟩, rfl⟩
  · rw [Component.messageText_message, hreading]
    exact String.empty_append

def mixed : Value :=
  .struct 0 "P" [("x", .number (.dynamic ⟨".tmp0"⟩ true)), ("y", .array [.null, .string (.dynamic ⟨"tmp1"⟩ true)])]

theorem print_shows_values_mixed : ∃ message : Json,
    (callBuiltin .print [.string (.static "p = "), mixed] .zero).Yields ⟨⟨"", ""⟩, {}, {}, []⟩ {} .null
        { draft := Draft.append { Node.leaf (.tellraw message) with location := some .zero } {} } ∧
      ∀ cells data, message.messageText {} cells data =
        "p = P(x: " ++ Word.text (cells ⟨".tmp0"⟩) ++ ", y: [null, " ++ data ⟨"tmp1"⟩ ++ "])" := by
  have hmixed : mixed.Printable := by
    refine .struct (List.forall_mem_cons.mpr ⟨.number _, List.forall_mem_singleton.mpr (.array ?_)⟩)
    exact List.forall_mem_cons.mpr ⟨.null, List.forall_mem_singleton.mpr (.string _)⟩
  obtain ⟨message, hyields, -, htext⟩ := print_shows_values (List.forall_mem_cons.mpr ⟨.string _,
    List.forall_mem_singleton.mpr hmixed⟩) .zero ⟨⟨"", ""⟩, {}, {}, []⟩ {}
  refine ⟨message, hyields, fun cells data => ?_⟩
  obtain ⟨texts, htexts, hmessage⟩ := htext cells data
  have hliteral : [Value.string (.static "p = "), mixed].map (fun v => (v.settled cells data).literalText?) =
      ["p = ", "P" ++ "(" ++ ("x" ++ ": " ++ Word.text (cells ⟨".tmp0"⟩) ++ ", " ++ ("y" ++ ": " ++ ("[" ++ ("null" ++ ", " ++
        data ⟨"tmp1"⟩) ++ "]"))) ++ ")"].map some := rfl
  obtain rfl := List.map_injective_iff.mpr (Option.some_injective _) (hliteral.symm.trans htexts)
  exact hmessage.trans (String.toList_inj.mp (by simp))

end Compile

end Datapack
