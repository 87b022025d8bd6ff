import SelectiveEffects.Text.Blank

/-! Where effects are created: call frames, the captured site, and the texts that show it. -/

namespace SelectiveEffects

/-- A frame without `code` has no known source line; a blank source line has the empty code. -/
structure CallFrame where
  filename : String
  line : Int
  function : String
  code : Option String := none
  deriving DecidableEq, Repr

structure Site where
  filename : String
  line : Int
  function : String
  code : Option String := none
  stack : List CallFrame := []
  deriving DecidableEq, Repr

namespace Site

def location (s : Site) : String :=
  s.filename ++ ":" ++ toString s.line ++ " in " ++ s.function

def codeLines : Option String → List String
  | some code => if code = "" then [] else ["    " ++ code]
  | none => []

def frameLines (f : CallFrame) : List String :=
  ("  File \"" ++ f.filename ++ "\", line " ++ toString f.line ++ ", in " ++ f.function) ::
    codeLines f.code

def stackLines (stack : List CallFrame) : List String :=
  if stack.isEmpty then [] else "\nCreation stack trace:" :: stack.flatMap frameLines

def description (s : Site) : String :=
  "\n".intercalate <|
    ("Effect created at " ++ s.location) :: codeLines s.code ++ stackLines s.stack

end Site

/-- The text of numbered source lines by file. A listed line has its text, an unlisted line below
the last listed one is blank. -/
structure Sources where
  files : List (String × List (Int × String)) := []

namespace Sources

def line? (sources : Sources) (file : String) (number : Int) : Option String :=
  match sources.files.lookup file with
  | none => none
  | some lines =>
    match lines.lookup number with
    | some text => some text
    | none =>
      if 1 ≤ number && lines.any fun entry => number < entry.1 then some "" else none

end Sources

namespace CallFrame

def normalized (path : String) : List Char :=
  (Text.small (path.map fun c => if c = '\\' then '/' else c)).toList

def isSitePackage (path : String) : Bool :=
  Text.occursIn "/site-packages/".toList (normalized path)

def isInternal (path : String) : Bool :=
  Text.occursIn "/doselect/".toList (normalized path)

/-- Interactive input, and code outside both the library and installed packages. -/
def isUser (path : String) : Bool :=
  path.toList.head? == some '<' || !(isSitePackage path || isInternal path)

def withSource (sources : Sources) (f : CallFrame) : CallFrame :=
  { f with code := (sources.line? f.filename f.line).map Text.trim }

/-- The callers to keep: up to `depth` of them, and unless all are wanted none beyond the first
user frame. -/
def callers (all : Bool) : Nat → List CallFrame → List CallFrame
  | 0, _ => []
  | _ + 1, [] => []
  | depth + 1, f :: fs =>
    if !all && isUser f.filename then [f] else f :: callers all depth fs

end CallFrame

namespace Site

def depthLimit (debug : Bool) : Nat :=
  if debug then 12 else 4

/-- The site of the first frame of a call stack, innermost first. An empty stack has none. -/
def capture (debug : Bool) (sources : Sources) : List CallFrame → Option Site
  | [] => none
  | f :: fs =>
    let shown := f.withSource sources
    some
      { filename := f.filename
        line := f.line
        function := f.function
        code := shown.code.filter fun code => code != ""
        stack := (CallFrame.callers debug (depthLimit debug) fs).map (CallFrame.withSource sources) }

/-- The settings that turn debugging on. -/
def debugSetting (value : Option String) : Bool :=
  ["1", "true", "yes"].contains (Text.small (value.getD ""))

end Site

end SelectiveEffects
