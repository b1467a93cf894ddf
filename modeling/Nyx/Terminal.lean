import Nyx.Text

/-! `nyx_core::output`: what is said on the terminal, on which stream and in what style. The
bytes a style is shown with are the `anstyle` crate's. -/
namespace Nyx.Terminal
open Text

inductive ColorMode
  | auto
  | always
  | never
  deriving DecidableEq

def ColorMode.fromStr : String → Except String ColorMode
  | "auto" => .ok .auto
  | "always" => .ok .always
  | "never" => .ok .never
  | other => .error ("invalid color mode: " ++ other)

/-- The error repeats what was asked for. -/
theorem ColorMode.fromStr_error {s e : String} :
    fromStr s = .error e ↔ s ∉ ["auto", "always", "never"] ∧ e = "invalid color mode: " ++ s := by
  unfold fromStr
  split
  · simp
  · simp
  · simp
  · rename_i hauto halways hnever
    have hother : s ∉ ["auto", "always", "never"] := by
      simp only [List.mem_cons, List.not_mem_nil, or_false, not_or]
      exact ⟨hauto, halways, hnever⟩
    rw [Except.error.injEq, eq_comm, and_iff_right hother]

inductive Verbosity
  | quiet
  | normal
  | verbose
  deriving DecidableEq

inductive Stream
  | stdout
  | stderr
  deriving DecidableEq

/-- What the process finds when it starts: which streams are terminals, and the environment. -/
structure Process where
  isTerminal : Stream → Bool
  env : Env

inductive AnsiColor
  | red
  | yellow
  deriving DecidableEq

/-- `anstyle::Style`, as far as it is set here. -/
structure Style where
  fgColor : Option AnsiColor
  isBold : Bool
  deriving DecidableEq

namespace Style

def new : Style := ⟨none, false⟩

def bold (style : Style) : Style := { style with isBold := true }

def fg (style : Style) (color : Option AnsiColor) : Style := { style with fgColor := color }

end Style

/-- Part of what a call writes: `reset` is `{style:#}`, and `newline` the end of the call's line. -/
inductive Piece
  | text (s : String)
  | style (style : Style)
  | reset (style : Style)
  | newline
  deriving DecidableEq

structure Line where
  stream : Stream
  pieces : List Piece
  deriving DecidableEq

def println (ps : List Piece) : Option Line := some ⟨.stdout, ps ++ [.newline]⟩

def eprintln (ps : List Piece) : Option Line := some ⟨.stderr, ps ++ [.newline]⟩

structure Output where
  color : Bool
  verbosity : Verbosity
  isTty : Bool
  json : Bool

namespace Output

def new (p : Process) (color : ColorMode) (verbosity : Verbosity) (json : Bool) : Output :=
  let isTty := p.isTerminal .stdout
  let noColorEnv := (varOs p.env "NO_COLOR").isSome
  let color := match color with
    | .always => true
    | .never => false
    | .auto => isTty && !noColorEnv
  ⟨color, verbosity, isTty, json⟩

def isQuiet (o : Output) : Bool := o.verbosity = .quiet

def isVerbose (o : Output) : Bool := o.verbosity = .verbose

def line (o : Output) (s : String) : Option Line :=
  if !o.isQuiet then println [.text s] else none

def header (o : Output) (s : String) : Option Line :=
  if o.isQuiet then none
  else if o.color then
    let style := Style.new.bold
    println [.style style, .text s, .reset style]
  else println [.text s]

def warn (o : Output) (s : String) : Option Line :=
  if o.color then
    let style := Style.new.fg (some .yellow)
    eprintln [.style style, .text s, .reset style]
  else eprintln [.text s]

/-- Only the first word is coloured. -/
def error (o : Output) (s : String) : Option Line :=
  if o.color then
    let style := Style.new.fg (some .red)
    eprintln [.style style, .text "error:", .reset style, .text " ", .text s]
  else eprintln [.text "error: ", .text s]

def debug (o : Output) (s : String) : Option Line :=
  if o.isVerbose then eprintln [.text "debug: ", .text s] else none

end Output

inductive Method
  | line
  | header
  | warn
  | error
  | debug
  deriving DecidableEq

structure Call where
  method : Method
  s : String
  deriving DecidableEq

def Output.call (o : Output) (c : Call) : Option Line :=
  match c.method with
  | .line => o.line c.s
  | .header => o.header c.s
  | .warn => o.warn c.s
  | .error => o.error c.s
  | .debug => o.debug c.s

/-- The lines written by a sequence of calls, each with its call. -/
def Output.run (o : Output) (cs : List Call) : List (Call × Line) :=
  cs.filterMap fun c => (o.call c).map fun l => (c, l)

/-- What a stream receives. -/
def on (st : Stream) (log : List (Call × Line)) : List Piece :=
  (log.filter fun e => e.2.stream = st).flatMap fun e => e.2.pieces

/-- The escape sequences of the `anstyle` crate. -/
structure Anstyle where
  render : Style → String
  renderReset : Style → String

def Piece.print (A : Anstyle) : Piece → String
  | .text s => s
  | .style σ => A.render σ
  | .reset σ => A.renderReset σ
  | .newline => "\n"

def print (A : Anstyle) (ps : List Piece) : String := String.join (ps.map (Piece.print A))

def Piece.isStyling : Piece → Bool
  | .style _ | .reset _ => true
  | .text _ | .newline => false

/-- The style sequences taken out again. -/
def erase (ps : List Piece) : List Piece := ps.filter fun p => !p.isStyling

def Method.stream : Method → Stream
  | .line | .header => .stdout
  | .warn | .error | .debug => .stderr

/-- Whether a method says anything. -/
def Method.shown (v : Verbosity) : Method → Bool
  | .line | .header => v ≠ .quiet
  | .warn | .error => true
  | .debug => v = .verbose

/-- How a call says what it says. -/
def Call.pieces (color : Bool) (c : Call) : List Piece :=
  match c.method, color with
  | .line, _ | .header, false | .warn, false => [.text c.s, .newline]
  | .header, true => [.style Style.new.bold, .text c.s, .reset Style.new.bold, .newline]
  | .warn, true =>
    [.style (Style.new.fg (some .yellow)), .text c.s, .reset (Style.new.fg (some .yellow)), .newline]
  | .error, true =>
    [.style (Style.new.fg (some .red)), .text "error:", .reset (Style.new.fg (some .red)), .text " ",
      .text c.s, .newline]
  | .error, false => [.text "error: ", .text c.s, .newline]
  | .debug, _ => [.text "debug: ", .text c.s, .newline]

/-- Verbosity decides whether a call says anything, colour how, and its method where. -/
theorem call_eq (o : Output) (c : Call) :
    o.call c =
      if c.method.shown o.verbosity then some ⟨c.method.stream, c.pieces o.color⟩ else none := by
  obtain ⟨color, v, isTty, json⟩ := o
  obtain ⟨m, s⟩ := c
  cases m <;> cases v <;> cases color <;> rfl

theorem run_cons (o : Output) (c : Call) (cs : List Call) :
    o.run (c :: cs) = ((o.call c).map fun l => (c, l)).toList ++ o.run cs := by
  unfold Output.run
  rw [List.filterMap_cons]
  cases o.call c with
  | none => rfl
  | some l => rfl

theorem on_append (st : Stream) (log log' : List (Call × Line)) :
    on st (log ++ log') = on st log ++ on st log' := by
  rw [on, List.filter_append, List.flatMap_append]
  rfl

/-- Each call in turn adds its pieces to its own stream, if it is shown. -/
theorem on_run (o : Output) (st : Stream) (cs : List Call) :
    on st (o.run cs) =
      (cs.filter fun c => c.method.shown o.verbosity && c.method.stream = st).flatMap
        (Call.pieces o.color) := by
  induction cs with
  | nil => rfl
  | cons c cs ih =>
    rw [run_cons, on_append, ih, call_eq, List.filter_cons]
    by_cases hs : c.method.shown o.verbosity
    · by_cases hst : c.method.stream = st
      · simp [on, hs, hst]
      · simp [on, hs, hst]
    · simp [on, hs]

end Nyx.Terminal
