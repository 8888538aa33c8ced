import Datapack.Proofs.Display
import Datapack.Proofs.Simulation.Value

/-!
Messages as players see them. The texts and scores of a message are shown one after the other, a score as the
word that is in its cell when the message is shown.
-/

namespace Datapack

variable {World : Type} {e e' : Emission} {components : List Component}

def Json.shownPiece (s : Settings) (cells : Cell → Int32) : Json → String
  | .string text => text
  | .object [("text", .string text)] => text
  | .object [("score", .object [("name", .string name), ("objective", .string objective)])] =>
    if objective = s.objective then Word.text (cells ⟨name⟩) else ""
  | _ => ""

def Json.shown (s : Settings) (cells : Cell → Int32) : Json → String
  | .array pieces => String.join (pieces.map (shownPiece s cells))
  | _ => ""

def Event.text? (s : Settings) : Event World → Option String
  | .message text cells _ => some (text.shown s cells)
  | _ => none

theorem Component.shownPiece_json (s : Settings) (cells : Cell → Int32) (c : Component) :
    (c.json s).shownPiece s cells = c.reading cells fun _ => "" := by
  cases c with
  | plain text => rfl
  | score cell => simp [json, Json.shownPiece, reading]
  | data path => rfl

theorem Component.shown_message (s : Settings) (cells : Cell → Int32) (seen : List Component) :
    (message s seen.reverse).shown s cells = readingAll cells (fun _ => "") seen := by
  have hpieces : (seen.reverse.map (json s)).map (Json.shownPiece s cells) =
      seen.reverse.map (reading cells fun _ => "") := by
    rw [List.map_map]
    exact List.map_congr_left fun c _ => shownPiece_json s cells c
  rw [message, Json.shown, List.map_cons, hpieces]
  simp [Json.shownPiece, readingAll]

def Value.Shows (cells : Cell → Int32) (text : String) : Value → Prop
  | .string (.static s) => s = text
  | .number d => ∃ n, d.Is id cells n ∧ text = Word.text n
  | _ => False

def Value.IsShown : Value → Prop
  | .string (.static _) | .number _ | .bool _ => True
  | _ => False

theorem Value.display_shows {v : Value} (hv : v.IsShown) :
    ∃ text, ShowsAs (v.display ·) text ∧ ∀ cells data t, v.Shows cells t → text cells data = t := by
  match v, hv with
  | .string (.static s), _ => exact ⟨_, .plain s, fun _ _ _ => id⟩
  | .number (.static n), _ =>
    refine ⟨_, .plain (Word.text n), ?_⟩
    rintro cells data _ ⟨_, rfl, rfl⟩
    rfl
  | .number (.dynamic c _), _ =>
    refine ⟨_, .place (c := .score c) id, ?_⟩
    rintro cells data _ ⟨_, rfl, rfl⟩
    rfl
  | .bool (.static b), _ => exact ⟨_, .plain (if b then "true" else "false"), fun _ _ _ => False.elim⟩
  | .bool (.dynamic c _), _ => exact ⟨_, .place (c := .score c) id, fun _ _ _ => False.elim⟩

theorem Value.displayAll_shows {values : List Value} (hvalues : ∀ v ∈ values, v.IsShown)
    (h : Emit.Yields (displayAll [] values).run e (.ok components) e') :
    e' = e ∧ ∀ s cells texts, List.Forall₂ (fun v text => v.Shows cells text) values texts →
      (Component.message s components).shown s cells = String.join texts := by
  obtain ⟨shown, hshown, hall⟩ := shows_displayAll fun v hv => display_shows (hvalues v hv)
  obtain ⟨added, hrun, hreading, -⟩ := hall []
  obtain ⟨hcomponents, rfl⟩ := Prod.mk.inj ((hrun e).symm.trans h)
  cases hcomponents
  refine ⟨rfl, fun s cells texts htexts => ?_⟩
  rw [Component.shown_message, hreading]
  refine String.empty_append.trans (congrArg String.join ?_)
  clear hall hreading hrun h hvalues
  induction hshown generalizing texts with
  | nil => cases htexts; rfl
  | cons hfirst _ ih =>
    cases htexts with
    | cons htext htexts => rw [List.map_cons, hfirst _ _ _ htext, ih _ htexts]

end Datapack
