import Nyx.PathBuf

/-! `nyx_core::paths`: where the configuration of a user lies, as the environment has it. -/
namespace Nyx.UserConfig
open FileTree Text PathBuf

/-- `$HOME/.config/nyx`, whatever `HOME` holds. -/
def homeConfigDir (env : Env) : Option OsStr :=
  (var env "HOME").toOption.map fun h => push (bytes h) (bytes ".config/nyx")

def userConfigDir (env : Env) : Option OsStr :=
  match var env "XDG_CONFIG_HOME" with
  | .ok xdg => if xdg ≠ "" then some (push (bytes xdg) (bytes "nyx")) else homeConfigDir env
  | .error _ => homeConfigDir env

def userConfigFile (env : Env) : Option OsStr :=
  (userConfigDir env).map fun d => push d (bytes "config.toml")

/-- Every empty or relative value unset. -/
def absoluteOnly (env : Env) : Env := fun key => (env key).filter isAbsolute

theorem isAbsolute_push_nyx (p : OsStr) : isAbsolute (push p (bytes "nyx")) = isAbsolute p := by
  rw [isAbsolute_push]
  rfl

theorem toOption_var {env : Env} {key s : String} :
    (var env key).toOption = some s ↔ var env key = .ok s := by
  cases var env key with
  | ok u => simp [Except.toOption]
  | error e => simp [Except.toOption]

theorem var_absoluteOnly {env : Env} {key s : String} :
    var (absoluteOnly env) key = .ok s ↔ var env key = .ok s ∧ isAbsolute (bytes s) := by
  rw [var_eq_ok, var_eq_ok, absoluteOnly, Option.filter_eq_some_iff]

section Dir
variable {env : Env}

theorem userConfigDir_xdg {xdg : String} (h : var env "XDG_CONFIG_HOME" = .ok xdg) (hne : xdg ≠ "") :
    userConfigDir env = some (push (bytes xdg) (bytes "nyx")) := by
  rw [userConfigDir, h]
  exact if_pos hne

theorem userConfigDir_home (h : ∀ xdg, var env "XDG_CONFIG_HOME" = .ok xdg → xdg = "") :
    userConfigDir env = homeConfigDir env := by
  unfold userConfigDir
  cases hx : var env "XDG_CONFIG_HOME" with
  | ok xdg => exact if_neg (not_not.mpr (h xdg hx))
  | error e => rfl

theorem homeConfigDir_eq_some {d : OsStr} :
    homeConfigDir env = some d ↔
      ∃ h, var env "HOME" = .ok h ∧ push (bytes h) (bytes ".config/nyx") = d := by
  simp only [homeConfigDir, Option.map_eq_some_iff, toOption_var]

/-- The value that is used is absolute: `XDG_CONFIG_HOME` where it is set, Unicode and not
empty, and `HOME` otherwise. -/
structure Anchored (env : Env) : Prop where
  xdg : ∀ xdg, var env "XDG_CONFIG_HOME" = .ok xdg → xdg ≠ "" → isAbsolute (bytes xdg)
  home : (∀ xdg, var env "XDG_CONFIG_HOME" = .ok xdg → xdg = "") →
    ∀ h, var env "HOME" = .ok h → isAbsolute (bytes h)

/-- Wherever the program runs, the location is the same or there is none, and a value that is
not absolute counts as unset. -/
structure Settled (env : Env) : Prop where
  dir : ∀ d, userConfigDir env = some d → isAbsolute d
  file : ∀ f, userConfigFile env = some f → isAbsolute f
  dir_unset : userConfigDir env = userConfigDir (absoluteOnly env)
  file_unset : userConfigFile env = userConfigFile (absoluteOnly env)

/-- Either `XDG_CONFIG_HOME` is used or `HOME` is. -/
theorem xdg_or_home (env : Env) :
    (∃ xdg, var env "XDG_CONFIG_HOME" = .ok xdg ∧ xdg ≠ "") ∨
      ∀ xdg, var env "XDG_CONFIG_HOME" = .ok xdg → xdg = "" := by
  by_cases h : ∀ xdg, var env "XDG_CONFIG_HOME" = .ok xdg → xdg = ""
  · exact Or.inr h
  · push Not at h
    exact Or.inl h

theorem Settled.anchored (h : Settled env) : Anchored env where
  xdg xdg hx hne := by
    have habs := h.dir _ (userConfigDir_xdg hx hne)
    rwa [isAbsolute_push_nyx] at habs
  home hno home hh := by
    have habs := h.dir _ ((userConfigDir_home hno).trans (homeConfigDir_eq_some.mpr ⟨home, hh, rfl⟩))
    rwa [isAbsolute_push] at habs

theorem Anchored.dir (h : Anchored env) {d : OsStr} (hd : userConfigDir env = some d) :
    isAbsolute d := by
  rcases xdg_or_home env with ⟨xdg, hx, hne⟩ | hno
  · rw [userConfigDir_xdg hx hne, Option.some.injEq] at hd
    rw [← hd, isAbsolute_push_nyx]
    exact h.xdg xdg hx hne
  · rw [userConfigDir_home hno] at hd
    obtain ⟨home, hh, rfl⟩ := homeConfigDir_eq_some.mp hd
    rw [isAbsolute_push, h.home hno home hh, Bool.or_true]

theorem Anchored.unset (h : Anchored env) : userConfigDir env = userConfigDir (absoluteOnly env) := by
  rcases xdg_or_home env with ⟨xdg, hx, hne⟩ | hno
  · have hx' := var_absoluteOnly.mpr ⟨hx, h.xdg xdg hx hne⟩
    rw [userConfigDir_xdg hx hne, userConfigDir_xdg hx' hne]
  · have hno' : ∀ xdg, var (absoluteOnly env) "XDG_CONFIG_HOME" = .ok xdg → xdg = "" :=
      fun xdg hx => hno xdg (var_absoluteOnly.mp hx).1
    rw [userConfigDir_home hno, userConfigDir_home hno']
    refine Option.ext fun d => ?_
    rw [homeConfigDir_eq_some, homeConfigDir_eq_some]
    constructor
    · rintro ⟨home, hh, hd⟩
      exact ⟨home, var_absoluteOnly.mpr ⟨hh, h.home hno home hh⟩, hd⟩
    · rintro ⟨home, hh, hd⟩
      exact ⟨home, (var_absoluteOnly.mp hh).1, hd⟩

end Dir

/-- The location is settled exactly where the value it is made from is absolute. -/
theorem settled_iff_anchored (env : Env) : Settled env ↔ Anchored env := by
  refine ⟨Settled.anchored, fun h => ⟨fun d => h.dir, fun f hf => ?_, h.unset, ?_⟩⟩
  · obtain ⟨d, hd, rfl⟩ := Option.map_eq_some_iff.mp hf
    rw [isAbsolute_push, h.dir hd, Bool.or_true]
  · rw [userConfigFile, userConfigFile, h.unset]

theorem Settled.loc {env : Env} (h : Settled env) {f : OsStr} (hf : userConfigFile env = some f)
    (cwd cwd' : Loc OsStr) : (parse f).loc cwd = (parse f).loc cwd' :=
  loc_of_isAbsolute (h.file f hf) cwd cwd'

/-- `HOME` is set to nothing and `XDG_CONFIG_HOME` is not set. -/
def homeless : Env := fun key => if key = "HOME" then some [] else none

theorem homeless_not_settled :
    userConfigFile homeless = some (bytes ".config/nyx/config.toml") ∧
      isAbsolute (bytes ".config/nyx/config.toml") = false ∧
      userConfigDir (absoluteOnly homeless) = none ∧ ¬Settled homeless := by
  have hdir : userConfigDir homeless = some (bytes ".config/nyx") := by decide +kernel
  refine ⟨by decide +kernel, by decide +kernel, by decide +kernel, fun h => ?_⟩
  have habs := h.dir _ hdir
  revert habs
  decide +kernel

end Nyx.UserConfig
