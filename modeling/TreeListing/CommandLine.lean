import TreeListing.Arguments
import TreeListing.OptionsFile

/-!
The commands, and how the flags of a command line change options. Flags win over an options file.
-/
namespace TreeListing

inductive LogLevel where
  | debug
  | info
  | warn
  | error
  | silent
deriving DecidableEq, Inhabited

instance : Choice LogLevel where
  values := [(.debug, "debug", []), (.info, "info", []), (.warn, "warn", []), (.error, "error", []),
    (.silent, "silent", [])]

/-- The level below which no message passes. -/
def LogLevel.filter : LogLevel → String
  | silent => "off"
  | level => Choice.name level

/-- What a command line says about a listing. -/
structure ListingFlags where
  relToCwd : Bool := false
  append : Bool := false
  header? : Option String := none
  footer? : Option String := none
  layout? : Option Layout := none
  filePattern? : Option String := none
  folderPattern? : Option String := none
  folderEndPattern? : Option String := none
  rootPattern? : Option String := none
  ellipsisPattern? : Option String := none
  startLevel? : Option Nat := none
  maxDepth? : Option Nat := none
  noIndent : Bool := false
  indent? : Option String := none
  showEllipsis : Bool := false
  ellipsis? : Option String := none
  properties : List String := []
  noFolders : Bool := false
  noFiles : Bool := false
  filterHidden : Bool := false
  exclude : List String := []
  grouping? : Option Grouping := none
  ignoreCase : Bool := false
  nameType? : Option NameType := none
  rootNameType? : Option NameType := none
  showSize : Bool := false
  showDate : Bool := false
  dateType? : Option DateType := none
  dateFormat? : Option String := none
  showHash : Bool := false
  showHidden : Bool := false
  hidden? : Option String := none

namespace ListingFlags

def overlay (f : ListingFlags) (o : Options) : Options where
  relToCwd := f.relToCwd || o.relToCwd
  append := f.append || o.append
  header := f.header?.getD o.header
  footer := f.footer?.getD o.footer
  filePattern? := f.filePattern?.or o.filePattern?
  folderPattern? := f.folderPattern?.or o.folderPattern?
  folderEndPattern? := f.folderEndPattern?.or o.folderEndPattern?
  rootPattern? := f.rootPattern?.or o.rootPattern?
  ellipsisPattern? := f.ellipsisPattern?.or o.ellipsisPattern?
  layout := f.layout?.getD o.layout
  startLevel := f.startLevel?.getD o.startLevel
  maxDepth := f.maxDepth?.getD o.maxDepth
  showIndent := !f.noIndent && o.showIndent
  indent := f.indent?.getD o.indent
  newline := o.newline
  properties := o.properties ++ f.properties
  showFolders := !f.noFolders && o.showFolders
  showFiles := !f.noFiles && o.showFiles
  excludes? := if f.exclude = [] then o.excludes? else some (Options.excludingNames f.exclude)
  filterHidden := f.filterHidden || o.filterHidden
  grouping := f.grouping?.getD o.grouping
  sortKey? := if f.ignoreCase then some SiblingOrder.ignoringCase else o.sortKey?
  nameType := f.nameType?.getD o.nameType
  rootNameType := f.rootNameType?.getD o.rootNameType
  showSize := f.showSize || o.showSize
  showDate := f.showDate || o.showDate
  dateType := f.dateType?.getD o.dateType
  dateFormat := f.dateFormat?.getD o.dateFormat
  showHash := f.showHash || o.showHash
  showEllipsis := f.showEllipsis || o.showEllipsis
  ellipsis := f.ellipsis?.getD o.ellipsis
  showHidden := f.showHidden || o.showHidden
  hidden := f.hidden?.getD o.hidden

/-- The options with the flags put over them, unless no date can be written with them. -/
def apply (f : ListingFlags) (o : Options) : Except ConfigError Options := do
  OptionsFile.checkDateFormat (f.overlay o).dateFormat
  return f.overlay o

end ListingFlags

inductive OutputTarget where
  | stdout
  /-- a file, under its usual name if there is no path -/
  | file (path? : Option Path)
deriving DecidableEq

inductive Action where
  | list (folders : List Path) (output : OutputTarget)
  | compare (old new : Path) (skipChildren namesOnly hideMatches color : Bool)
  | properties
deriving DecidableEq

structure Invocation where
  logLevel : LogLevel
  config? : Option Path
  action : Action
  flags : ListingFlags

namespace Invocation

open Arguments

/-- One of the names of a choice; `exact` if the case of letters counts. -/
def isChoice (α : Type) [Choice α] (exact : Bool) : Check := fun text =>
  let known :=
    if exact then (Choice.names α).contains text else (Choice.ofName? (α := α) text).isSome
  if known then none else some .invalidValue

def isPath : Check := fun text => if text = "" then some .invalidValue else none

def isNumber : Check := fun text =>
  if (Text.word? text.toList).isSome then none else some .valueValidation

def helpFlag : Flag := ⟨"help", ["help"], some 'h', .nothing, anything, some .displayHelp⟩

def versionFlag : Flag :=
  ⟨"version", ["version"], some 'V', .nothing, anything, some .displayVersion⟩

def commonFlags : List Flag := [
  ⟨"log-level", ["log-level"], some 'l', .one, isChoice LogLevel true, none⟩,
  ⟨"config", ["config"], some 'c', .one, isPath, none⟩,
  helpFlag]

def switch (name : String) (others : List String) : Flag := { name, long := name :: others }

def option (name : String) (check : Check) : Flag := { name, long := [name], takes := .one, check }

def listingFlags : List Flag := [
  switch "rel-to-cwd" ["cwd"],
  switch "append" [],
  option "header" anything,
  option "footer" anything,
  { option "format-type" (isChoice Layout false) with short? := some 'f' },
  option "file-format" anything,
  option "dir-format" anything,
  option "dir-close-format" anything,
  option "root-format" anything,
  option "ellipsis-format" anything,
  option "start-level" isNumber,
  { option "max-depth" isNumber with short? := some 'd' },
  switch "no-indent" [],
  option "indent" anything,
  switch "show-ellipsis" [],
  option "ellipsis" anything,
  { option "property" anything with takes := .many },
  switch "no-folders" [],
  switch "no-files" [],
  switch "filter-hidden" [],
  { option "exclude" anything with takes := .many },
  option "item-grouping" (isChoice Grouping false),
  switch "ignore-case" [],
  option "name-type" (isChoice NameType false),
  option "root-name-type" (isChoice NameType false),
  switch "show-size" ["size"],
  switch "show-date" ["date"],
  option "date-type" (isChoice DateType false),
  option "date-format" anything,
  switch "show-hash" ["hash"],
  switch "show-hidden" [],
  option "hidden" anything]

def program : Command where
  flags := commonFlags ++ [versionFlag]
  positions := []
  commands := ["list", "compare", "properties", "help"]

def command? : String → Option Command
  | "list" => some {
    flags := { option "output" isPath with short? := some 'o', takes := .atMostOne } ::
      commonFlags ++ listingFlags
    positions := [{ name := "folders", repeated := true, check := isPath }]
    commands := [] }
  | "compare" => some {
    flags := [switch "skip-children" [], switch "compare-content" [], switch "hide-matches" [],
      switch "no-color" []] ++ commonFlags ++ listingFlags
    positions := [
      { name := "old", required := true, check := isPath }, { name := "new", check := isPath }]
    commands := [] }
  | "properties" => some { flags := commonFlags, positions := [], commands := [] }
  | _ => none

def values (given : Given) (name : String) : List String := (given.lookup name).getD []

def isOn (given : Given) (name : String) : Bool := (given.lookup name).isSome

def value? (given : Given) (name : String) : Option String := (values given name).head?

def path? (given : Given) (name : String) : Option Path := (value? given name).map Path.mk

def choice? (α : Type) [Choice α] (given : Given) (name : String) : Option α :=
  (value? given name).bind Choice.ofName?

def number? (given : Given) (name : String) : Option Nat :=
  (value? given name).bind (Text.word? ·.toList)

def flagsOf (g : Given) : ListingFlags where
  relToCwd := isOn g "rel-to-cwd"
  append := isOn g "append"
  header? := value? g "header"
  footer? := value? g "footer"
  layout? := choice? Layout g "format-type"
  filePattern? := value? g "file-format"
  folderPattern? := value? g "dir-format"
  folderEndPattern? := value? g "dir-close-format"
  rootPattern? := value? g "root-format"
  ellipsisPattern? := value? g "ellipsis-format"
  startLevel? := number? g "start-level"
  maxDepth? := number? g "max-depth"
  noIndent := isOn g "no-indent"
  indent? := value? g "indent"
  showEllipsis := isOn g "show-ellipsis"
  ellipsis? := value? g "ellipsis"
  properties := values g "property"
  noFolders := isOn g "no-folders"
  noFiles := isOn g "no-files"
  filterHidden := isOn g "filter-hidden"
  exclude := values g "exclude"
  grouping? := choice? Grouping g "item-grouping"
  ignoreCase := isOn g "ignore-case"
  nameType? := choice? NameType g "name-type"
  rootNameType? := choice? NameType g "root-name-type"
  showSize := isOn g "show-size"
  showDate := isOn g "show-date"
  dateType? := choice? DateType g "date-type"
  dateFormat? := value? g "date-format"
  showHash := isOn g "show-hash"
  showHidden := isOn g "show-hidden"
  hidden? := value? g "hidden"

def here : Path := ⟨"."⟩

def actionOf (command : String) (g : Given) : Action :=
  match command with
  | "list" =>
    let folders := (values g "folders").map Path.mk
    .list (if folders = [] then [here] else folders)
      (if isOn g "output" then .file (path? g "output") else .stdout)
  | "compare" =>
    .compare ((path? g "old").getD here) ((path? g "new").getD here) (isOn g "skip-children")
      (!isOn g "compare-content") (isOn g "hide-matches") (!isOn g "no-color")
  | _ => .properties

/-- Reads a command line. A common flag behind the command wins over one before it. -/
def ofWords (words : List String) : Except UsageError Invocation := do
  let call ← Arguments.parse program command? words
  let common (name : String) := (value? call.given name).or (value? call.outer name)
  return {
    logLevel := ((common "log-level").bind Choice.ofName?).getD .warn
    config? := (common "config").map Path.mk
    action := actionOf call.command call.given
    flags := flagsOf call.given }

/-- The options of a run: the usual ones, those of the options file, and the flags. -/
def options (i : Invocation) (d : Disk) : Except ConfigError Options := do
  let o ← match i.config? with
    | some path => OptionsFile.read d path
    | none => .ok {}
  i.flags.apply o

end Invocation

end TreeListing
