import Nyx.Terminal

/-! Whole runs of terminal output, compared across colour and verbosity: what is said depends
on neither, and what colour adds is taken back before the call ends. -/
namespace Nyx.Terminal
open Text

/-- Every style that is opened is reset before a piece at which a line ends. -/
def closed (ends : Piece → Bool) : Option Style → List Piece → Bool
  | now, [] => now = none
  | none, .style σ :: ps => closed ends (some σ) ps
  | some _, .style _ :: _ => false
  | some σ, .reset τ :: ps => σ = τ && closed ends none ps
  | none, .reset _ :: _ => false
  | some σ, p :: ps => !ends p && closed ends (some σ) ps
  | none, _ :: ps => closed ends none ps

def endsCall (p : Piece) : Bool := p = .newline

/-- A text may hold a line break of its own. -/
def endsLine : Piece → Bool
  | .newline => true
  | .text s => '\n' ∈ s.toList
  | .style _ | .reset _ => false

/-- The methods that style anything, and those that style the text they are given. -/
def Method.styled : Method → Bool
  | .header | .warn | .error => true
  | .line | .debug => false

def Method.stylesText : Method → Bool
  | .header | .warn => true
  | .line | .error | .debug => false

def withoutDebug (log : List (Call × Line)) : List (Call × Line) :=
  log.filter fun e => e.1.method ≠ .debug

section Print
variable (A : Anstyle)

theorem print_append (ps qs : List Piece) : print A (ps ++ qs) = print A ps ++ print A qs := by
  simp [print, String.join_append]

theorem erase_append (ps qs : List Piece) : erase (ps ++ qs) = erase ps ++ erase qs :=
  List.filter_append ..

theorem print_erase_pieces (c : Call) :
    print A (erase (c.pieces true)) = print A (c.pieces false) := by
  obtain ⟨m, s⟩ := c
  cases m with
  | line | header | warn | debug => rfl
  | error =>
    have hword : "error: " = "error:" ++ " " := by decide +kernel
    simp [print, erase, Call.pieces, Piece.isStyling, Piece.print, String.join, hword,
      String.append_assoc]

theorem print_erase_flatMap (cs : List Call) :
    print A (erase (cs.flatMap (Call.pieces true))) = print A (cs.flatMap (Call.pieces false)) := by
  induction cs with
  | nil => rfl
  | cons c cs ih =>
    rw [List.flatMap_cons, List.flatMap_cons, erase_append, print_append, print_append, ih,
      print_erase_pieces]

end Print

theorem isStyling_pieces (color : Bool) (c : Call) :
    (c.pieces color).any Piece.isStyling = (color && c.method.styled) := by
  obtain ⟨m, s⟩ := c
  cases m <;> cases color <;> rfl

/-- A stream carries a style sequence where colour is on and a method that styles was called. -/
theorem isStyling_run (o : Output) (st : Stream) (cs : List Call) :
    (on st (o.run cs)).any Piece.isStyling = true ↔
      o.color = true ∧
        ∃ c ∈ cs, c.method.styled ∧ c.method.shown o.verbosity ∧ c.method.stream = st := by
  rw [on_run, List.any_flatMap, List.any_eq_true]
  constructor
  · rintro ⟨c, hc, hs⟩
    rw [isStyling_pieces, Bool.and_eq_true] at hs
    obtain ⟨hmem, hshown⟩ := List.mem_filter.mp hc
    rw [Bool.and_eq_true, decide_eq_true_eq] at hshown
    exact ⟨hs.1, c, hmem, hs.2, hshown.1, hshown.2⟩
  · rintro ⟨hcolor, c, hc, hs, hshown, hst⟩
    refine ⟨c, List.mem_filter.mpr ⟨hc, by simp [hshown, hst]⟩, ?_⟩
    rw [isStyling_pieces, hcolor, hs]
    rfl

theorem closed_call (c : Call) (color : Bool) (ps : List Piece) :
    closed endsCall none (c.pieces color ++ ps) = closed endsCall none ps := by
  obtain ⟨m, s⟩ := c
  cases m <;> cases color <;> simp [Call.pieces, closed, endsCall]

theorem closed_line (c : Call) (color : Bool) (ps : List Piece) :
    closed endsLine none (c.pieces color ++ ps) =
      (!(color && c.method.stylesText && '\n' ∈ c.s.toList) && closed endsLine none ps) := by
  obtain ⟨m, s⟩ := c
  cases m <;> cases color <;> simp [Call.pieces, closed, Method.stylesText, endsLine]

theorem closed_call_run (o : Output) (st : Stream) (cs : List Call) :
    closed endsCall none (on st (o.run cs)) = true := by
  rw [on_run]
  induction cs.filter fun c => c.method.shown o.verbosity && c.method.stream = st with
  | nil => rfl
  | cons c cs ih => rw [List.flatMap_cons, closed_call, ih]

theorem closed_line_run (o : Output) (st : Stream) (cs : List Call) :
    closed endsLine none (on st (o.run cs)) = true ↔
      ∀ c ∈ cs, c.method.shown o.verbosity → c.method.stream = st → o.color →
        c.method.stylesText → '\n' ∉ c.s.toList := by
  have hall : closed endsLine none (on st (o.run cs)) = true ↔
      ∀ c ∈ cs.filter fun c => c.method.shown o.verbosity && c.method.stream = st,
        (o.color && c.method.stylesText && '\n' ∈ c.s.toList) = false := by
    rw [on_run]
    induction cs.filter fun c => c.method.shown o.verbosity && c.method.stream = st with
    | nil => simp [closed]
    | cons c cs ih =>
      rw [List.flatMap_cons, closed_line, Bool.and_eq_true, ih, List.forall_mem_cons,
        Bool.not_eq_true']
  rw [hall]
  constructor
  · intro h c hc hshown hst hcolor hs
    have hbreak := h c (List.mem_filter.mpr ⟨hc, by simp [hshown, hst]⟩)
    simpa [hcolor, hs] using hbreak
  · intro h c hc
    obtain ⟨hmem, hs⟩ := List.mem_filter.mp hc
    rw [Bool.and_eq_true, decide_eq_true_eq] at hs
    have hbreak := h c hmem hs.1 hs.2
    by_cases hcolor : o.color
    · by_cases hst : c.method.stylesText
      · simpa [hcolor, hst] using hbreak hcolor hst
      · simp [hst]
    · simp [hcolor]

theorem shown_stdout {v : Verbosity} {m : Method} (h : m.stream = .stdout) :
    m.shown v = true ↔ v ≠ .quiet := by
  cases m with
  | line | header => exact decide_eq_true_iff
  | warn | error | debug => cases h

theorem shown_stderr {m : Method} (h : m.stream = .stderr) (hd : m ≠ .debug) (v : Verbosity) :
    m.shown v = true := by
  cases m with
  | line | header => cases h
  | warn | error => rfl
  | debug => exact absurd rfl hd

theorem stdout_quiet {o : Output} (h : o.verbosity = .quiet) (cs : List Call) :
    on .stdout (o.run cs) = [] := by
  have hnone : cs.filter (fun c => c.method.shown o.verbosity && c.method.stream = .stdout) = [] := by
    rw [List.filter_eq_nil_iff]
    intro c hc hs
    rw [Bool.and_eq_true, decide_eq_true_eq] at hs
    exact (shown_stdout hs.2).mp hs.1 h
  rw [on_run, hnone, List.flatMap_nil]

theorem stdout_run {o : Output} (h : o.verbosity ≠ .quiet) (cs : List Call) :
    on .stdout (o.run cs) =
      (cs.filter fun c => c.method.stream = .stdout).flatMap (Call.pieces o.color) := by
  rw [on_run]
  congr 1
  refine List.filter_congr fun c hc => ?_
  by_cases hst : c.method.stream = .stdout
  · rw [(shown_stdout hst).mpr h, Bool.true_and]
  · simp [hst]

theorem withoutDebug_run (o : Output) (cs : List Call) :
    withoutDebug (o.run cs) = o.run (cs.filter fun c => c.method ≠ .debug) := by
  unfold withoutDebug
  induction cs with
  | nil => rfl
  | cons c cs ih =>
    rw [run_cons, List.filter_append, ih, List.filter_cons]
    by_cases hd : c.method = .debug
    · cases o.call c with
      | none => simp [hd]
      | some l => simp [hd]
    · rw [if_pos (by simpa using hd), run_cons]
      cases o.call c with
      | none => rfl
      | some l => simp [hd]

theorem stderr_run (o : Output) (cs : List Call) :
    on .stderr (withoutDebug (o.run cs)) =
      (cs.filter fun c => c.method ≠ .debug && c.method.stream = .stderr).flatMap
        (Call.pieces o.color) := by
  rw [withoutDebug_run, on_run, List.filter_filter]
  congr 1
  refine List.filter_congr fun c hc => ?_
  by_cases hst : c.method.stream = .stderr
  · by_cases hd : c.method = .debug
    · simp [hd]
    · simp [hd, hst, shown_stderr hst hd]
  · simp [hst]

/-- Colour adds style sequences to what is said and takes every one back before its call ends,
which is before the line ends unless a styled text breaks it; verbosity adds whole lines. -/
theorem output_says_the_same (A : Anstyle) (isTty json : Bool) (cs : List Call) :
    (∀ v st, print A (erase (on st ((Output.mk true v isTty json).run cs))) =
        print A (on st ((Output.mk false v isTty json).run cs)) ∧
      (on st ((Output.mk false v isTty json).run cs)).any Piece.isStyling = false) ∧
    (∀ color v st, closed endsCall none (on st ((Output.mk color v isTty json).run cs)) = true) ∧
    (∀ color v st, closed endsLine none (on st ((Output.mk color v isTty json).run cs)) = true ↔
      ∀ c ∈ cs, c.method.shown v → c.method.stream = st → color → c.method.stylesText →
        '\n' ∉ c.s.toList) ∧
    (∀ color, on .stdout ((Output.mk color .quiet isTty json).run cs) = [] ∧
      on .stdout ((Output.mk color .normal isTty json).run cs) =
        on .stdout ((Output.mk color .verbose isTty json).run cs)) ∧
    ∀ color v w, on .stderr (withoutDebug ((Output.mk color v isTty json).run cs)) =
      on .stderr (withoutDebug ((Output.mk color w isTty json).run cs)) := by
  refine ⟨fun v st => ⟨?_, ?_⟩, fun color v st => closed_call_run _ st cs,
    fun color v st => closed_line_run _ st cs, fun color => ⟨stdout_quiet rfl cs, ?_⟩,
    fun color v w => ?_⟩
  · rw [on_run, on_run, print_erase_flatMap]
  · by_contra hs
    rw [Bool.not_eq_false] at hs
    have hcolor := ((isStyling_run _ st cs).mp hs).1
    cases hcolor
  · rw [stdout_run (by simp), stdout_run (by simp)]
  · rw [stderr_run, stderr_run]

/-- A header of two lines is bold from the first to the last. -/
def twoLines : List Call := [⟨.header, "a\nb"⟩]

theorem twoLines_styled_past_line :
    on .stdout ((Output.mk true .normal true false).run twoLines) =
        [.style Style.new.bold, .text "a\nb", .reset Style.new.bold, .newline] ∧
      closed endsLine none (on .stdout ((Output.mk true .normal true false).run twoLines)) = false :=
  ⟨by decide +kernel, by decide +kernel⟩

theorem auto_color {p : Process} {v : Verbosity} {json : Bool} :
    (Output.new p .auto v json).color = true ↔
      p.isTerminal .stdout = true ∧ ¬(varOs p.env "NO_COLOR").isSome := by
  simp [Output.new]

/-- Warnings and errors are what is styled on standard error, under every verbosity. -/
theorem method_stderr {m : Method} {v : Verbosity} :
    (m.styled ∧ m.shown v ∧ m.stream = .stderr) ↔ m = .warn ∨ m = .error := by
  cases m <;> simp [Method.styled, Method.stream, Method.shown]

/-- Automatic colour stays off the streams that are no terminals, and off both under `NO_COLOR`,
except where standard error is redirected alone and a warning or an error is written. -/
theorem auto_color_iff (p : Process) (v : Verbosity) (json : Bool) (cs : List Call) :
    ((∀ st, p.isTerminal st = false →
        (on st ((Output.new p .auto v json).run cs)).any Piece.isStyling = false) ∧
      ((varOs p.env "NO_COLOR").isSome → ∀ st,
        (on st ((Output.new p .auto v json).run cs)).any Piece.isStyling = false)) ↔
    (varOs p.env "NO_COLOR").isSome ∨ p.isTerminal .stdout = false ∨ p.isTerminal .stderr = true ∨
      ∀ c ∈ cs, c.method ≠ .warn ∧ c.method ≠ .error := by
  constructor
  · rintro ⟨hplain, -⟩
    by_contra hno
    push Not at hno
    obtain ⟨henv, hout, herr, c, hc, hm⟩ := hno
    have hcolor : (Output.new p .auto v json).color = true := auto_color.mpr ⟨by simpa using hout, henv⟩
    have hstyled := (isStyling_run (Output.new p .auto v json) .stderr cs).mpr
      ⟨hcolor, c, hc, method_stderr.mpr (or_iff_not_imp_left.mpr hm)⟩
    rw [hplain .stderr (by simpa using herr)] at hstyled
    cases hstyled
  · intro h
    refine ⟨fun st hst => ?_, fun henv st => ?_⟩
    · by_contra hs
      rw [Bool.not_eq_false] at hs
      obtain ⟨hcolor, c, hc, hstyled⟩ := (isStyling_run _ st cs).mp hs
      obtain ⟨hout, henv⟩ := auto_color.mp hcolor
      cases st with
      | stdout => exact absurd hst (by simp [hout])
      | stderr =>
        rcases h with henv' | hout' | herr | hcs
        · exact henv henv'
        · exact absurd hout' (by simp [hout])
        · exact absurd hst (by simp [herr])
        · rcases method_stderr.mp hstyled with hm | hm
          · exact (hcs c hc).1 hm
          · exact (hcs c hc).2 hm
    · by_contra hs
      rw [Bool.not_eq_false] at hs
      exact (auto_color.mp ((isStyling_run _ st cs).mp hs).1).2 henv

/-- Standard error goes to a file and standard output to a terminal. -/
def redirected : Process := ⟨fun st => st = .stdout, fun _ => none⟩

theorem redirected_styled :
    redirected.isTerminal .stderr = false ∧
      on .stderr ((Output.new redirected .auto .normal false).run [⟨.warn, "privileged"⟩]) =
        [.style (Style.new.fg (some .yellow)), .text "privileged",
          .reset (Style.new.fg (some .yellow)), .newline] ∧
      ¬ ∀ st, redirected.isTerminal st = false →
        (on st ((Output.new redirected .auto .normal false).run
          [⟨.warn, "privileged"⟩])).any Piece.isStyling = false := by
  refine ⟨by decide +kernel, by decide +kernel, fun h => ?_⟩
  have hplain := h .stderr (by decide +kernel)
  revert hplain
  decide +kernel

end Nyx.Terminal
