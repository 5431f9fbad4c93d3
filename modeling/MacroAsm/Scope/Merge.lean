import MacroAsm.Expr.Similar
import MacroAsm.Scope.Basic

/-!
# Merging the arms of a condition

When a test is only known at link time, both arms of a condition are assembled, each against its own
copy of the scope, and what they did is merged back. A name on which the arms agree keeps what they
agree on, and one on which they differ is bound to a choice by the test. A name that only one arm
binds would have no value on the other path, which is an error.
-/

namespace MacroAsm

namespace Scope

/-- Carries the declaration of the unset symbol `src` into `dst`. -/
def carry (dst : Symbol) : Option Symbol → Symbol
  | none => dst
  | some src =>
    { dst with
      loc := dst.loc.orElse src.loc
      used := dst.used || src.used
      global := dst.global || src.global
      frozen := dst.frozen || src.frozen
      weak := dst.weak || src.weak
      declared := dst.declared || src.declared
      attributes := dst.attributes.orElse fun _ => src.attributes }

/-- The symbol of a name that both arms bind, given the symbol it starts from. -/
def mergeSet (test : Expr) (name : Text) (hs ts fs : Symbol) : Except Cause Symbol := do
  let bound ←
    if ts.isMacro || fs.isMacro then
      if ts.template.map Macro.id != fs.template.map Macro.id || ts.value.isSome ||
          fs.value.isSome then
        .error (.undecidedMacro name)
      else .ok { hs with template := ts.template }
    else if Expr.similar? ts.value fs.value then
      .ok (if Expr.similar? hs.value ts.value then hs
        else { hs with value := ts.value, loc := ts.loc })
    else
      match ts.value, fs.value with
      | some t, some f =>
        .ok { hs with value := some (.ternary test.loc test t f), loc := ts.loc }
      | _, _ => .ok hs
  return { bound with
    used := bound.used || ts.used || fs.used
    frozen := bound.frozen || ts.frozen || fs.frozen }

/-- Merges one name of a frame from the frames of the two arms. A name that is new here is entered
before its merge can fail. -/
def mergeName (test : Expr) (onTrue onFalse : Frame) (here : Frame) (name : Text) :
    Frame × Option Cause :=
  let hs := here.find? name
  if (hs.map Symbol.reserved).getD false then (here, none)
  else
    let ts := onTrue.find? name
    let fs := onFalse.find? name
    match ts, fs, (ts.map Symbol.isSet).getD false, (fs.map Symbol.isSet).getD false with
    | some t, some f, true, true =>
      match mergeSet test name (hs.getD t) t f with
      | .ok merged => (here.insert name merged, none)
      | .error c => (here.insert name (hs.getD t), some c)
    | _, _, true, _ => (here, some (.unbalanced name true))
    | _, _, _, true => (here, some (.unbalanced name false))
    | _, _, _, _ =>
      if (hs.map Symbol.isSet).getD false then (here.erase name, none)
      else if hs.isNone && ts.isNone && fs.isNone then (here, none)
      else (here.insert name (carry (carry (hs.getD {}) ts) fs), none)

/-- Merges names one after the other. What was merged before a failure stays. -/
def mergeNames (test : Expr) (onTrue onFalse : Frame) :
    List Text → Frame → Frame × Option Cause
  | [], here => (here, none)
  | name :: rest, here =>
    match mergeName test onTrue onFalse here name with
    | (here, none) => mergeNames test onTrue onFalse rest here
    | (here, some c) => (here, some c)

/-- The names of `more` that are not among `names`, each once, after them. -/
def addNames (names more : List Text) : List Text :=
  more.foldl (fun acc n => if acc.contains n then acc else acc ++ [n]) names

/-- Merges the frames of open units, innermost first. Only the names a frame owns and those an arm left
unset there take part: what an arm binds in a frame of its own stays there. -/
def mergeInner (test : Expr) :
    List Frame → List Frame → List Frame → List Frame × Option Cause
  | here :: hs, t :: ts, f :: fs =>
    let names := addNames (addNames here.names t.unsetNames) f.unsetNames
    match mergeNames test t f names here with
    | (here, some c) => (here :: hs, some c)
    | (here, none) =>
      let (rest, c) := mergeInner test hs ts fs
      (here :: rest, c)
  | hs, _, _ => (hs, none)

/-- Merges what two arms of a condition did back into the scope they were copied from. The root frame
may gain names. What was merged before a failure stays. -/
def merge (s : Scope) (test : Expr) (onTrue onFalse : Scope) : Scope × Option Cause :=
  if onTrue.depth != s.depth || onFalse.depth != s.depth then
    (s, some (.depthMismatch onTrue.depth onFalse.depth s.depth))
  else
    match mergeInner test s.inner onTrue.inner onFalse.inner with
    | (inner, some c) => ({ s with inner }, some c)
    | (inner, none) =>
      let names := addNames (addNames s.root.names onTrue.root.names) onFalse.root.names
      let (root, c) := mergeNames test onTrue.root onFalse.root names s.root
      (⟨root, inner⟩, c)

end Scope

end MacroAsm
