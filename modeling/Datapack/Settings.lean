import Datapack.Json.Reader

/-!
Settings of a compilation and the catalogue of engine names, both read from JSON. A settings text may be an
object with any of the known members, or a list of values in the order of the fields.
-/

namespace Datapack

namespace Json

def strings? : Json → Option (List String)
  | .array items =>
    items.foldr (fun item rest =>
      match item, rest with
      | .string s, some texts => some (s :: texts)
      | _, _ => none) (some [])
  | _ => none

/-- The value of a member that occurs at most once: `none` if it occurs more often, `some none` if it does
not occur. -/
def single? (name : String) (members : List (String × Json)) : Option (Option Json) :=
  match members.filter (fun m => m.1 == name) with
  | [] => some none
  | [(_, value)] => some (some value)
  | _ => none

def orDefault? {α : Type} (read : Json → Option α) (fallback : α) : Option Json → Option α
  | none => some fallback
  | some value => read value

def string? : Json → Option String
  | .string s => some s
  | _ => none

def bool? : Json → Option Bool
  | .bool b => some b
  | _ => none

end Json

structure Settings where
  namespaceName : String := "mcscript"
  objective : String := "mcscript"
  storage : String := "main"
  optimize : Bool := true
  /-- Functions that the engine calls by itself, next to `main`. -/
  hooks : List String := ["init", "onTick"]
deriving Repr, DecidableEq, Inhabited

namespace Settings

def isRoot (settings : Settings) (name : String) : Bool :=
  name == "main" || settings.hooks.contains name

def fieldNames : List String := ["namespace", "objective", "storage", "optimize", "hooks"]

def ofFields? (name objective storage optimize hooks : Option Json) : Option Settings :=
  let base : Settings := {}
  match Json.orDefault? Json.string? base.namespaceName name,
    Json.orDefault? Json.string? base.objective objective,
    Json.orDefault? Json.string? base.storage storage,
    Json.orDefault? Json.bool? base.optimize optimize,
    Json.orDefault? Json.strings? base.hooks hooks with
  | some n, some o, some s, some opt, some h => some ⟨n, o, s, opt, h⟩
  | _, _, _, _, _ => none

/-- Settings from a JSON value. A member may not occur twice, others than the known ones are ignored. -/
def ofJson? : Json → Option Settings
  | .object members =>
    match Json.single? "namespace" members, Json.single? "objective" members,
      Json.single? "storage" members, Json.single? "optimize" members, Json.single? "hooks" members with
    | some n, some o, some s, some opt, some h => ofFields? n o s opt h
    | _, _, _, _, _ => none
  | .array items =>
    if items.length ≤ 5 then ofFields? items[0]? items[1]? items[2]? items[3]? items[4]? else none
  | _ => none

def ofText? (text : String) : Option Settings :=
  match Json.parse? (fun name => fieldNames.contains name) text with
  | some json => ofJson? json
  | none => none

end Settings

structure Catalogue where
  blocks : List String := ["air", "stone", "granite", "dirt", "grass_block", "cobblestone", "oak_planks",
    "bedrock", "water", "lava", "sand", "gravel", "oak_log", "glass", "gold_block", "iron_block",
    "diamond_block", "redstone_block", "obsidian", "white_wool", "red_wool", "glowstone"]
  features : List String := ["buried_treasure", "desert_pyramid", "end_city", "fortress", "igloo",
    "jungle_pyramid", "mansion", "mineshaft", "monument", "ocean_ruin", "pillager_outpost", "shipwreck",
    "stronghold", "swamp_hut", "village"]
deriving Repr, DecidableEq, Inhabited

namespace Catalogue

def bareName (id : String) : String :=
  let engine := "minecraft:".toList
  if engine.isPrefixOf id.toList then .ofList (id.toList.drop engine.length) else id

def hasBlock (catalogue : Catalogue) (id : String) : Bool := catalogue.blocks.contains (bareName id)

def hasFeature (catalogue : Catalogue) (name : String) : Bool :=
  catalogue.features.contains (bareName name)

/-- A catalogue from values for the fields. Repeated names count once; the blocks have to be there. -/
def ofFields? (blocks features : Option Json) : Option Catalogue :=
  match blocks with
  | none => none
  | some blocks =>
    match Json.strings? blocks, Json.orDefault? Json.strings? ({} : Catalogue).features features with
    | some b, some f => some ⟨b.eraseDups, f.eraseDups⟩
    | _, _ => none

def ofJson? : Json → Option Catalogue
  | .object members =>
    match Json.single? "blocks" members, Json.single? "features" members with
    | some b, some f => ofFields? b f
    | _, _ => none
  | .array items => if items.length ≤ 2 then ofFields? items[0]? items[1]? else none
  | _ => none

def ofText? (text : String) : Option Catalogue :=
  match Json.parse? (fun name => name == "blocks" || name == "features") text with
  | some json => ofJson? json
  | none => none

end Catalogue

end Datapack
