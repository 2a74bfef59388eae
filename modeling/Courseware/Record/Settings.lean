import Courseware.Record
import Courseware.Retry

/-!
# Settings as records
-/

namespace Courseware

/-- Numbers of attempts have 32 bits. -/
instance : Recorded RetryPolicy :=
  .ofFields ["max_attempts", "initial_backoff", "min_increment", "max_increment", "max_backoff"]
    (fun p =>
      ((⟨p.maxAttempts⟩ : Natural 32), p.initialBackoff, p.minIncrement, p.maxIncrement,
        p.maxBackoff, ()))
    (fun (attempts, initialBackoff, minIncrement, maxIncrement, maxBackoff, ()) =>
      { maxAttempts := attempts.value, initialBackoff, minIncrement, maxIncrement, maxBackoff })

/-- How long calls wait for locks and how they try again. -/
structure Settings where
  lockTimeout : Duration
  retry : RetryPolicy
  deriving DecidableEq

instance : Recorded Settings :=
  .ofFields ["lock_timeout", "retry"] (fun s => (s.lockTimeout, s.retry, ()))
    (fun (lockTimeout, retry, ()) => { lockTimeout, retry })

end Courseware
