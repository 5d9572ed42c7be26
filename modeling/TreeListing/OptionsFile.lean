import TreeListing.DateFormat
import TreeListing.Options
import TreeListing.Text.Utf8
import TreeListing.Yaml.Node

/-!
Options in a file: a map from the names of options to their values. Its entries are applied one
after the other up to the first that is wrong.
-/
namespace TreeListing

inductive ConfigError where
  | readFailed (path : Path) (cause : SystemError)
  | noDocument
  | keyNoString
  | notMap
  | unknownOption (key : String)
  | invalidValue (key expected : String)
  | invalidDateFormat (format : String)
deriving DecidableEq

def ConfigError.message (d : Disk) : ConfigError → String
  | readFailed path _ => "Failed to read the options file: " ++ d.display path
  | noDocument => "Failed to parse the options file"
  | keyNoString => "Option keys must be plain strings"
  | notMap => "Top level of the options file should be a map"
  | unknownOption key => "Unknown option '" ++ key ++ "'"
  | invalidValue key expected => "Option '" ++ key ++ "' should be " ++ expected
  | invalidDateFormat format => "Invalid date format '" ++ format ++ "'"

namespace OptionsFile

abbrev Reading (α : Type) := Except String α

def boolean : Yaml.Node → Reading Bool
  | .scalar (.boolean b) => .ok b
  | _ => .error "a boolean"

def natural : Yaml.Node → Reading Nat
  | .scalar (.integer (.ofNat n)) => .ok n
  | _ => .error "a non-negative integer"

/-- A text; nothing at all is the empty text. -/
def string : Yaml.Node → Reading String
  | .scalar (.string text) => .ok text
  | .scalar .null => .ok ""
  | _ => .error "a string"

def strings : Yaml.Node → Reading (List String)
  | .list items => items.mapM string
  | _ => .error "a list of strings"

def choice (α : Type) [Choice α] (n : Yaml.Node) : Reading α := do
  match Choice.parse? (← string n) with
  | some a => return a
  | none => throw ("one of: " ++ ", ".intercalate (Choice.names α))

abbrev Setting := Yaml.Node → Reading (Options → Options)

def setting {α : Type} (read : Yaml.Node → Reading α) (write : α → Options → Options) : Setting :=
  fun n => (read n).map write

def settings : List (String × Setting) := [
  ("rel_to_cwd", setting boolean fun b o => { o with relToCwd := b }),
  ("append", setting boolean fun b o => { o with append := b }),
  ("header", setting string fun s o => { o with header := s }),
  ("footer", setting string fun s o => { o with footer := s }),
  ("file_format", setting string fun s o => { o with filePattern? := some s }),
  ("dir_format", setting string fun s o => { o with folderPattern? := some s }),
  ("dir_close_format", setting string fun s o => { o with folderEndPattern? := some s }),
  ("root_format", setting string fun s o => { o with rootPattern? := some s }),
  ("ellipsis_format", setting string fun s o => { o with ellipsisPattern? := some s }),
  ("format_type", setting (choice Layout) fun c o => { o with layout := c }),
  ("start_level", setting natural fun n o => { o with startLevel := n }),
  ("max_depth", setting natural fun n o => { o with maxDepth := n }),
  ("show_indent", setting boolean fun b o => { o with showIndent := b }),
  ("indent", setting string fun s o => { o with indent := s }),
  ("newline", setting string fun s o => { o with newline := s }),
  ("properties", setting strings fun l o => { o with properties := l }),
  ("show_folders", setting boolean fun b o => { o with showFolders := b }),
  ("show_files", setting boolean fun b o => { o with showFiles := b }),
  ("exclude", setting strings fun l o => { o with excludes? := some (Options.excludingNames l) }),
  ("filter_hidden", setting boolean fun b o => { o with filterHidden := b }),
  ("item_grouping", setting (choice Grouping) fun c o => { o with grouping := c }),
  ("ignore_case", setting boolean fun b o =>
    { o with sortKey? := if b then some SiblingOrder.ignoringCase else none }),
  ("name_type", setting (choice NameType) fun c o => { o with nameType := c }),
  ("root_name_type", setting (choice NameType) fun c o => { o with rootNameType := c }),
  ("show_size", setting boolean fun b o => { o with showSize := b }),
  ("show_date", setting boolean fun b o => { o with showDate := b }),
  ("date_type", setting (choice DateType) fun c o => { o with dateType := c }),
  ("date_format", setting string fun s o => { o with dateFormat := s }),
  ("show_hash", setting boolean fun b o => { o with showHash := b }),
  ("show_ellipsis", setting boolean fun b o => { o with showEllipsis := b }),
  ("ellipsis", setting string fun s o => { o with ellipsis := s }),
  ("show_hidden", setting boolean fun b o => { o with showHidden := b }),
  ("hidden", setting string fun s o => { o with hidden := s })]

def applyEntry (o : Options) (key value : Yaml.Node) : Except ConfigError Options :=
  match key with
  | .scalar (.string name) =>
    match settings.lookup name with
    | none => .error (.unknownOption name)
    | some read => ((read value).map (· o)).mapError (.invalidValue name)
  | _ => .error .keyNoString

/-- Applies entries up to the first that is wrong. -/
def applyEntries (o : Options) : List (Yaml.Node × Yaml.Node) → Except ConfigError Unit × Options
  | [] => (.ok (), o)
  | (key, value) :: rest =>
    match applyEntry o key value with
    | .ok o => applyEntries o rest
    | .error e => (.error e, o)

/-- Refuses a format of dates in which a specifier stands for nothing. -/
def checkDateFormat (format : String) : Except ConfigError Unit :=
  if DateFormat.isValid format then .ok () else .error (.invalidDateFormat format)

/-- Applies the first document of a text; a text without documents changes nothing. -/
def apply (o : Options) (text : String) : Except ConfigError Unit × Options :=
  match Yaml.Node.load? text with
  | none => (.error .noDocument, o)
  | some [] => (.ok (), o)
  | some (.map pairs :: _) =>
    match applyEntries o pairs with
    | (.ok (), o) => (checkDateFormat o.dateFormat, o)
    | (.error e, o) => (.error e, o)
  | some (_ :: _) => (.error .notMap, o)

def read (d : Disk) (path : Path) : Except ConfigError Options :=
  match d.content path with
  | .error e => .error (.readFailed path e)
  | .ok bytes =>
    match Text.decode? bytes with
    | none => .error (.readFailed path .invalidData)
    | some text =>
      match apply {} text with
      | (.ok (), o) => .ok o
      | (.error e, _) => .error e

end OptionsFile

end TreeListing
