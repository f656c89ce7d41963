import Forge.Utils.Config

/-! # Configuration — Integers in the File

  What becomes of an integer that the file gives for an unsigned field. The
  conversion to the field's type wraps, and the range is checked after it:

  - `UnsignedField`: the six fields, each with its type, its range and what
    it falls back to;
  - `value_loadConfig`: the integer modulo the size of the type, if that is
    in the range;
  - `faithful_iff`: when this is the integer itself or the fallback.
-/

namespace Forge

namespace Config

/-- The fields of type `unsigned` and `uint16_t`. -/
inductive UnsignedField where
  | numThreads
  | maxConcurrentLlmCalls
  | maxSessions
  | defaultMaxIterations
  | defaultTimeoutSeconds
  | port
  deriving DecidableEq

namespace UnsignedField

def key : UnsignedField → String
  | .numThreads => "num_threads"
  | .maxConcurrentLlmCalls => "max_concurrent_llm_calls"
  | .maxSessions => "max_sessions"
  | .defaultMaxIterations => "default_max_iterations"
  | .defaultTimeoutSeconds => "default_timeout_seconds"
  | .port => "port"

/-- The width of the field's type. -/
def bits : UnsignedField → ℕ
  | .port => 16
  | _ => 32

def value (cfg : Config) : UnsignedField → ℕ
  | .numThreads => cfg.numThreads
  | .maxConcurrentLlmCalls => cfg.maxConcurrentLlmCalls
  | .maxSessions => cfg.maxSessions
  | .defaultMaxIterations => cfg.defaultMaxIterations
  | .defaultTimeoutSeconds => cfg.defaultTimeoutSeconds
  | .port => cfg.port

/-- The range `validate` lets through. -/
def least : UnsignedField → ℕ
  | .numThreads => 0
  | _ => 1

def greatest : UnsignedField → ℕ
  | .numThreads | .maxConcurrentLlmCalls => maxThreads
  | .maxSessions => maxSessionsLimit
  | .defaultMaxIterations => 10000
  | .defaultTimeoutSeconds => 86400
  | .port => 65535

/-- What `validate` puts in place of the rest. -/
def fallback : UnsignedField → ℕ
  | .numThreads => 0
  | .maxConcurrentLlmCalls => 8
  | .maxSessions => 1000
  | .defaultMaxIterations => 15
  | .defaultTimeoutSeconds => 300
  | .port => 8080

/-- The integer is in the field's range. -/
def Accepts (f : UnsignedField) (i : ℤ) : Prop := f.least ≤ i ∧ i ≤ f.greatest

instance (f : UnsignedField) (i : ℤ) : Decidable (f.Accepts i) :=
  inferInstanceAs (Decidable (_ ∧ _))

/-- The field has the integer of the file, or its fallback if that is out
    of range. -/
structure Faithful (f : UnsignedField) (i : ℤ) (cfg : Config) : Prop where
  accepted : f.Accepts i → (f.value cfg : ℤ) = i
  replaced : ¬f.Accepts i → f.value cfg = f.fallback

variable {f : UnsignedField} {i : ℤ} {j : Json} {cfg raw : Config}

/-- The fallback is in the range. -/
theorem accepts_fallback (f : UnsignedField) : f.Accepts f.fallback := by
  cases f <;> decide

theorem greatest_lt (f : UnsignedField) : f.greatest < 2 ^ f.bits := by
  cases f <;> decide

/-! ### Reading and Checking -/

theorem read_int {bits default n : ℕ} {key : String} (hfield : j.field? key = some (.int i))
    (hread : j.read (Json.getUnsigned bits) key default = some n) : (n : ℤ) = i % 2 ^ bits := by
  simp only [Json.read, hfield, Json.getUnsigned, Option.some.injEq] at hread
  have hnonneg : 0 ≤ i % 2 ^ bits := Int.emod_nonneg i (by positivity)
  rw [← hread, Int.toNat_of_nonneg hnonneg]

/-- The conversion is a `static_cast`. -/
theorem value_ofJson (hof : ofJson j = some raw) (hfield : j.field? f.key = some (.int i)) :
    (f.value raw : ℤ) = i % 2 ^ f.bits := by
  simp only [ofJson, Option.bind_eq_bind, Option.bind_eq_some_iff] at hof
  obtain ⟨threads, hthreads, calls, hcalls, rate, -, burst, -, sessions, hsessions, iterations,
    hiterations, timeout, htimeout, level, -, host, -, port, hport, hraw⟩ := hof
  cases hraw
  cases f with
  | numThreads => exact read_int hfield hthreads
  | maxConcurrentLlmCalls => exact read_int hfield hcalls
  | maxSessions => exact read_int hfield hsessions
  | defaultMaxIterations => exact read_int hfield hiterations
  | defaultTimeoutSeconds => exact read_int hfield htimeout
  | port => exact read_int hfield hport

/-- The check of a field, whose type bounds it already. -/
theorem value_validate (f : UnsignedField) (hlt : f.value raw < 2 ^ f.bits) :
    f.value raw.validate = if f.Accepts (f.value raw) then f.value raw else f.fallback := by
  by_cases hin : f.Accepts (f.value raw)
  · rw [if_pos hin]
    obtain ⟨hleast, hgreatest⟩ := hin
    rw [Nat.cast_le] at hleast hgreatest
    cases f with
    | numThreads => exact if_neg (not_lt.mpr hgreatest)
    | port => exact if_neg (Nat.pos_iff_ne_zero.mp hleast)
    | maxConcurrentLlmCalls | maxSessions | defaultMaxIterations | defaultTimeoutSeconds =>
      exact if_neg (not_or.mpr ⟨Nat.pos_iff_ne_zero.mp hleast, not_lt.mpr hgreatest⟩)
  · rw [if_neg hin]
    rw [Accepts, Nat.cast_le, Nat.cast_le] at hin
    cases f with
    | numThreads =>
      simp only [least, Nat.zero_le, true_and] at hin
      exact if_pos (not_le.mp hin)
    | port =>
      simp only [value, least, greatest, bits] at hin hlt
      exact if_pos (by omega)
    | maxConcurrentLlmCalls | maxSessions | defaultMaxIterations | defaultTimeoutSeconds =>
      simp only [value, least, greatest] at hin
      exact if_pos (by omega)

/-- **What a field becomes.** -/
theorem value_loadConfig (hload : loadConfig (some j) = some cfg)
    (hfield : j.field? f.key = some (.int i)) :
    (f.value cfg : ℤ) = if f.Accepts (i % 2 ^ f.bits) then i % 2 ^ f.bits else f.fallback := by
  obtain ⟨raw, hof, rfl⟩ := Option.map_eq_some_iff.mp hload
  have hvalue := value_ofJson hof hfield
  have hlt : f.value raw < 2 ^ f.bits := by
    have hmod : i % 2 ^ f.bits < 2 ^ f.bits := Int.emod_lt_of_pos i (by positivity)
    rw [← hvalue] at hmod
    exact_mod_cast hmod
  rw [value_validate f hlt, ← hvalue]
  split <;> rfl

/-- An integer in the range does not wrap. -/
theorem Accepts.emod (h : f.Accepts i) : i % 2 ^ f.bits = i := by
  obtain ⟨hleast, hgreatest⟩ := h
  have hlt := f.greatest_lt
  have hbound : (f.greatest : ℤ) < 2 ^ f.bits := by exact_mod_cast hlt
  exact Int.emod_eq_of_lt (by omega) (by omega)

/-- One field is right if and only if its integer is in range, or wraps to
    nothing that is, or to the fallback. -/
theorem faithful_iff (hload : loadConfig (some j) = some cfg)
    (hfield : j.field? f.key = some (.int i)) :
    f.Faithful i cfg ↔
      f.Accepts i ∨ ¬f.Accepts (i % 2 ^ f.bits) ∨ i % 2 ^ f.bits = f.fallback := by
  have hvalue := value_loadConfig hload hfield
  constructor
  · rintro ⟨-, hreplaced⟩
    by_cases hin : f.Accepts i
    · exact .inl hin
    · right
      by_cases hwrapped : f.Accepts (i % 2 ^ f.bits)
      · rw [if_pos hwrapped, hreplaced hin] at hvalue
        exact .inr hvalue.symm
      · exact .inl hwrapped
  · intro hcond
    refine ⟨?_, ?_⟩
    · intro hin
      rw [hvalue, hin.emod, if_pos hin]
    · intro hout
      rcases hcond with hin | hwrapped | hfallback
      · exact absurd hin hout
      · rw [if_neg hwrapped] at hvalue
        exact_mod_cast hvalue
      · rw [hfallback, ite_self] at hvalue
        exact_mod_cast hvalue

/-- **Integers in the configuration.** All the fields of a configuration
    that is loaded are the integers of the file, or the fallbacks for those
    out of range, if and only if no integer out of range wraps into the
    range, other than to the fallback. -/
theorem loadConfig_faithful_iff (hload : loadConfig (some j) = some cfg) :
    (∀ (f : UnsignedField) (i : ℤ), j.field? f.key = some (.int i) → f.Faithful i cfg) ↔
      ∀ (f : UnsignedField) (i : ℤ), j.field? f.key = some (.int i) →
        f.Accepts i ∨ ¬f.Accepts (i % 2 ^ f.bits) ∨ i % 2 ^ f.bits = f.fallback := by
  constructor
  · intro hall f i hfield
    exact (faithful_iff hload hfield).mp (hall f i hfield)
  · intro hall f i hfield
    exact (faithful_iff hload hfield).mpr (hall f i hfield)

/-- Integers for all the fields, two of them out of range. -/
def sixFields : Json :=
  .object [("num_threads", .int 4), ("max_concurrent_llm_calls", .int 2000),
    ("max_sessions", .int (-1)), ("default_max_iterations", .int 20),
    ("default_timeout_seconds", .int 60), ("port", .int 9090)]

theorem sixFields_faithful : ∃ cfg, loadConfig (some sixFields) = some cfg ∧
    ∀ (f : UnsignedField) (i : ℤ), sixFields.field? f.key = some (.int i) → f.Faithful i cfg := by
  have hload : loadConfig (some sixFields) = some
      { numThreads := 4, defaultMaxIterations := 20, defaultTimeoutSeconds := 60,
        port := 9090 } := by decide +kernel
  refine ⟨_, hload, (loadConfig_faithful_iff hload).mpr ?_⟩
  intro f i hfield
  cases f <;> cases hfield <;> decide

/-- A number of sessions that wraps to five. -/
def manySessions : Json := .object [("max_sessions", .int 4294967301)]

theorem manySessions_wraps :
    ¬ ∀ (j : Json) (cfg : Config), loadConfig (some j) = some cfg →
      ∀ (f : UnsignedField) (i : ℤ), j.field? f.key = some (.int i) → f.Faithful i cfg := by
  intro hall
  have hload : loadConfig (some manySessions) = some { maxSessions := 5 } := by decide +kernel
  have hfaithful := hall _ _ hload .maxSessions 4294967301 rfl
  exact absurd (hfaithful.replaced (by decide)) (by decide)

end UnsignedField

end Config

end Forge
