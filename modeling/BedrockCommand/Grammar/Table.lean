import BedrockCommand.Grammar.Entities
import BedrockCommand.Grammar.Execute
import BedrockCommand.Grammar.Messages
import BedrockCommand.Grammar.Players
import BedrockCommand.Grammar.Scoreboard
import BedrockCommand.Grammar.World
import BedrockCommand.Version.Versioned
/-!
The commands by their names, and everything else that differs from version to version.
-/
namespace BedrockCommand.Grammar

/-- Other names of commands. -/
def abbreviations : List (String × String) :=
  [("?", "help"),
   ("connect", "wsserver"),
   ("daylock", "alwaysday"),
   ("msg", "tell"),
   ("w", "tell"),
   ("tp", "teleport"),
   ("wb", "worldbuilder")]

/-- The name of a command that may have been abbreviated. -/
def canonicalName (typed : String) : String :=
  (abbreviations.lookup typed).getD typed

/-- The commands that function files have no permission for. -/
def restricted : List String :=
  ["deop", "op", "setmaxplayers", "whitelist", "save", "wsserver"]

/-- The commands that are the same in every version. -/
def steadyCommands : List (String × Rule) :=
  [("ability", .ability),
   ("alwaysday", .alwaysday),
   ("camerashake", .camerashake),
   ("clear", .clear),
   ("clearspawnpoint", .optionalTarget),
   ("clone", .clone),
   ("damage", .damage),
   ("deop", .target),
   ("dialogue", .dialogue),
   ("difficulty", .difficulty),
   ("effect", .effect),
   ("enchant", .enchant),
   ("event", .event),
   ("fill", .fill),
   ("fog", .fog),
   ("function", .functionPath),
   ("gamemode", .setGameMode),
   ("gamerule", .gamerule),
   ("give", .give),
   ("help", .help),
   ("immutableworld", .alwaysday),
   ("kick", .kick),
   ("kill", .optionalTarget),
   ("list", .done),
   ("locate", .locate),
   ("loot", .loot),
   ("me", .message),
   ("mobevent", .mobevent),
   ("music", .music),
   ("op", .target),
   ("particle", .particle),
   ("playanimation", .playanimation),
   ("playsound", .playsound),
   ("replaceitem", .replaceitem),
   ("ride", .ride),
   ("save", .save),
   ("say", .message),
   ("schedule", .schedule),
   ("scoreboard", .scoreboard),
   ("seed", .done),
   ("setblock", .setblock),
   ("setmaxplayers", .setmaxplayers),
   ("setworldspawn", .setworldspawn),
   ("spawnpoint", .spawnpoint),
   ("spreadplayers", .spreadplayers),
   ("stop", .done),
   ("stopsound", .stopsound),
   ("structure", .structures),
   ("summon", .summon),
   ("tag", .tag),
   ("teleport", .teleport),
   ("tell", .tell),
   ("tellraw", .tellraw),
   ("testfor", .target),
   ("testforblock", .testforblock),
   ("testforblocks", .testforblocks),
   ("tickingarea", .tickingarea),
   ("time", .time),
   ("title", .title),
   ("titleraw", .titleraw),
   ("toggledownfall", .done),
   ("volumearea", .volumearea),
   ("weather", .weather),
   ("whitelist", .whitelist),
   ("worldbuilder", .done),
   ("wsserver", .wsserver),
   ("xp", .xp)]

/-- All commands, each with its rules from version to version. -/
def commands : List (String × Versioned Rule) :=
  steadyCommands.map (fun (name, rule) => (name, .always rule)) ++
    [("execute", (Versioned.always .executeAt).insert .v1_19_50 .executeChain),
     ("inputpermission", .since .v1_19_80 .inputpermission)]

def blockSuffixes : Versioned BlockSuffix :=
  (Versioned.always .dataOrStates).insert .v1_19_70 .states

/-- The selector options of the oldest version. -/
def oldSelectorOptions : List String :=
  ["x", "y", "z", "dx", "dy", "dz", "r", "rm", "scores", "tag", "name", "type", "family", "rx",
   "rxm", "ry", "rym", "hasitem", "l", "lm", "m", "c"]

def selectorOptions : Versioned (List String) :=
  (Versioned.always oldSelectorOptions).insert .v1_19_80 (oldSelectorOptions ++ ["haspermission"])

/-- The rule of a command at a version, if there is such a command. -/
def command? (name : String) (version : Version) : Option Rule :=
  (commands.lookup name).bind (·.resolve? version)

/-- What a version decides about arguments. -/
def dialect (version : Version) : Dialect where
  blockSuffix := blockSuffixes.resolve? version
  selectorOptions := (selectorOptions.resolve? version).getD oldSelectorOptions

/-- The versions from which something is different, the oldest first. -/
def meaningfulVersions : List Version :=
  let all := commands.flatMap (fun (_, rules) => rules.thresholds) ++
    blockSuffixes.thresholds ++ selectorOptions.thresholds
  all.eraseDups.mergeSort Version.atMost

end BedrockCommand.Grammar
