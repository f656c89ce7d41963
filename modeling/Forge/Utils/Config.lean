import Forge.Utils.Json

/-! # Configuration

  `load_config` (`utils/config.cpp`): a file that cannot be parsed gives
  the defaults, a field of the wrong type an exception (`none`), and what
  is out of range is replaced. Logging is left out. A `double` is taken as
  an exact rational.
-/

namespace Forge

namespace Json

/-- `get` of an unsigned type of so many bits: numbers and booleans are
    converted modulo its size, the rest throws. -/
def getUnsigned (bits : ℕ) : Json → Option ℕ
  | .int i => some (i % 2 ^ bits).toNat
  | .float q => some ((if 0 ≤ q then ⌊q⌋ else ⌈q⌉) % 2 ^ bits).toNat
  | .bool b => some (if b then 1 else 0)
  | _ => none

/-- `get<double>()`. -/
def getDouble : Json → Option ℚ
  | .int i => some i
  | .float q => some q
  | _ => none

/-- Read a field if it exists, otherwise keep the default. -/
def read {α : Type} (get : Json → Option α) (j : Json) (key : String) (default : α) : Option α :=
  match j.field? key with
  | some v => get v
  | none => some default

end Json

/-- `utils/config.h`, with the default values. -/
structure Config where
  numThreads : ℕ := 0
  maxConcurrentLlmCalls : ℕ := 8
  llmRateLimit : ℚ := 60
  llmRateBurst : ℚ := 10
  maxSessions : ℕ := 1000
  defaultMaxIterations : ℕ := 15
  defaultTimeoutSeconds : ℕ := 300
  logLevel : String := "info"
  host : String := "127.0.0.1"
  port : ℕ := 8080
  deriving DecidableEq

namespace Config

def maxThreads : ℕ := 1024

def maxSessionsLimit : ℕ := 100000

/-- The fields as they are in the file. -/
def ofJson (j : Json) : Option Config := do
  let cfg : Config := {}
  let numThreads ← j.read (Json.getUnsigned 32) "num_threads" cfg.numThreads
  let maxConcurrentLlmCalls ←
    j.read (Json.getUnsigned 32) "max_concurrent_llm_calls" cfg.maxConcurrentLlmCalls
  let llmRateLimit ← j.read Json.getDouble "llm_rate_limit" cfg.llmRateLimit
  let llmRateBurst ← j.read Json.getDouble "llm_rate_burst" cfg.llmRateBurst
  let maxSessions ← j.read (Json.getUnsigned 32) "max_sessions" cfg.maxSessions
  let defaultMaxIterations ←
    j.read (Json.getUnsigned 32) "default_max_iterations" cfg.defaultMaxIterations
  let defaultTimeoutSeconds ←
    j.read (Json.getUnsigned 32) "default_timeout_seconds" cfg.defaultTimeoutSeconds
  let logLevel ← j.read Json.getString "log_level" cfg.logLevel
  let host ← j.read Json.getString "host" cfg.host
  let port ← j.read (Json.getUnsigned 16) "port" cfg.port
  some { numThreads, maxConcurrentLlmCalls, llmRateLimit, llmRateBurst, maxSessions,
         defaultMaxIterations, defaultTimeoutSeconds, logLevel, host, port }

/-- Clamp / validate. -/
def validate (cfg : Config) : Config where
  numThreads := if cfg.numThreads > maxThreads then 0 else cfg.numThreads
  maxConcurrentLlmCalls :=
    if cfg.maxConcurrentLlmCalls = 0 ∨ cfg.maxConcurrentLlmCalls > maxThreads then 8
    else cfg.maxConcurrentLlmCalls
  llmRateLimit :=
    if cfg.llmRateLimit ≤ 0 ∨ cfg.llmRateLimit > 1000000 then 60 else cfg.llmRateLimit
  llmRateBurst :=
    if cfg.llmRateBurst ≤ 0 ∨ cfg.llmRateBurst > 1000000 then 10 else cfg.llmRateBurst
  maxSessions :=
    if cfg.maxSessions = 0 ∨ cfg.maxSessions > maxSessionsLimit then 1000 else cfg.maxSessions
  defaultMaxIterations :=
    if cfg.defaultMaxIterations = 0 ∨ cfg.defaultMaxIterations > 10000 then 15
    else cfg.defaultMaxIterations
  defaultTimeoutSeconds :=
    if cfg.defaultTimeoutSeconds = 0 ∨ cfg.defaultTimeoutSeconds > 86400 then 300
    else cfg.defaultTimeoutSeconds
  logLevel := cfg.logLevel
  host := if cfg.host = "" then "127.0.0.1" else cfg.host
  port := if cfg.port = 0 then 8080 else cfg.port

/-- What `validate` lets through. -/
structure Valid (cfg : Config) : Prop where
  numThreads : cfg.numThreads ≤ maxThreads
  maxConcurrentLlmCalls : 0 < cfg.maxConcurrentLlmCalls ∧ cfg.maxConcurrentLlmCalls ≤ maxThreads
  llmRateLimit : 0 < cfg.llmRateLimit ∧ cfg.llmRateLimit ≤ 1000000
  llmRateBurst : 0 < cfg.llmRateBurst ∧ cfg.llmRateBurst ≤ 1000000
  maxSessions : 0 < cfg.maxSessions ∧ cfg.maxSessions ≤ maxSessionsLimit
  defaultMaxIterations : 0 < cfg.defaultMaxIterations ∧ cfg.defaultMaxIterations ≤ 10000
  defaultTimeoutSeconds : 0 < cfg.defaultTimeoutSeconds ∧ cfg.defaultTimeoutSeconds ≤ 86400
  host : cfg.host ≠ ""
  port : 0 < cfg.port

end Config

/-- `load_config`; `file` is the parsed file, or that it cannot be parsed. -/
def loadConfig (file : Option Json) : Option Config :=
  match file with
  | none => some {}
  | some j => (Config.ofJson j).map Config.validate

namespace Config

/-- A range check with a replacement that is in range. -/
theorem clamp_nat {n bound default : ℕ} (hdefault : 0 < default ∧ default ≤ bound) :
    0 < (if n = 0 ∨ n > bound then default else n) ∧
      (if n = 0 ∨ n > bound then default else n) ≤ bound := by
  split
  · exact hdefault
  · omega

theorem clamp_rat {q default : ℚ} (hdefault : 0 < default ∧ default ≤ 1000000) :
    0 < (if q ≤ 0 ∨ q > 1000000 then default else q) ∧
      (if q ≤ 0 ∨ q > 1000000 then default else q) ≤ 1000000 := by
  split
  · exact hdefault
  · next hin =>
    rw [not_or, not_le, not_lt] at hin
    exact hin

theorem validate_valid (cfg : Config) : Valid cfg.validate where
  numThreads := by
    unfold validate
    simp only
    split
    · exact Nat.zero_le _
    · omega
  maxConcurrentLlmCalls := clamp_nat (by decide)
  llmRateLimit := clamp_rat (by norm_num)
  llmRateBurst := clamp_rat (by norm_num)
  maxSessions := clamp_nat (by decide)
  defaultMaxIterations := clamp_nat (by decide)
  defaultTimeoutSeconds := clamp_nat (by decide)
  host := by
    unfold validate
    simp only
    split
    · decide
    · assumption
  port := by
    unfold validate
    simp only
    split <;> omega

/-- What is in range is left as it is. -/
theorem validate_eq_self {cfg : Config} (h : Valid cfg) : cfg.validate = cfg := by
  have hnat : ∀ {n bound default : ℕ}, 0 < n ∧ n ≤ bound →
      (if n = 0 ∨ n > bound then default else n) = n :=
    fun hin => if_neg (by omega)
  have hrat : ∀ {q default : ℚ}, 0 < q ∧ q ≤ 1000000 →
      (if q ≤ 0 ∨ q > 1000000 then default else q) = q :=
    fun hin => if_neg (not_or.mpr ⟨not_le.mpr hin.1, not_lt.mpr hin.2⟩)
  unfold validate
  rw [if_neg (not_lt.mpr h.numThreads), hnat h.maxConcurrentLlmCalls, hrat h.llmRateLimit,
    hrat h.llmRateBurst, hnat h.maxSessions, hnat h.defaultMaxIterations,
    hnat h.defaultTimeoutSeconds, if_neg h.host, if_neg (Nat.pos_iff_ne_zero.mp h.port)]

/-- The defaults pass their own checks. -/
theorem default_valid : Valid {} where
  numThreads := by decide
  maxConcurrentLlmCalls := by decide
  llmRateLimit := by norm_num
  llmRateBurst := by norm_num
  maxSessions := by decide
  defaultMaxIterations := by decide
  defaultTimeoutSeconds := by decide
  host := by decide
  port := by decide

/-- **Every configuration that is loaded is valid.** -/
theorem loadConfig_valid {file : Option Json} {cfg : Config} (hload : loadConfig file = some cfg) :
    Valid cfg := by
  cases file with
  | none =>
    rw [← Option.some.inj hload]
    exact default_valid
  | some j =>
    obtain ⟨raw, -, rfl⟩ := Option.map_eq_some_iff.mp hload
    exact validate_valid raw

/-- A file whose fields are in range is loaded as it stands. -/
theorem loadConfig_of_valid {j : Json} {cfg : Config} (hread : ofJson j = some cfg)
    (h : Valid cfg) : loadConfig (some j) = some cfg := by
  rw [loadConfig, hread, Option.map_some, validate_eq_self h]

end Config

end Forge
