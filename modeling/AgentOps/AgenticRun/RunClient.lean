import AgentOps.Lib.Bytes

/-!
# The run client

`agenticrun/runclient.go`: the prompt that `CreateRun` sends to the authorization server.
-/

namespace AgentOps.AgenticRun

open AgentOps.Lib

def promptMaxBytes : ℕ := 4096

def truncationMarker : Bytes := utf8 "… [truncated]"

/-- `ClampPrompt`. -/
def clampPrompt (s : Bytes) : Bytes :=
  if s.length ≤ promptMaxBytes then s
  else s.take (backUp s (promptMaxBytes - truncationMarker.length)) ++ truncationMarker

/-- The prompt that `CreateRun` sends. -/
def sentPrompt (prompt : String) : Bytes := clampPrompt (utf8 prompt)

theorem clampPrompt_of_le {s : Bytes} (h : s.length ≤ promptMaxBytes) : clampPrompt s = s := by
  unfold clampPrompt
  rw [if_pos h]

/-- Of a text that is too long only what stands before the limit is kept. -/
theorem mem_clampPrompt {s t : Bytes} {b : UInt8} (hs : promptMaxBytes ≤ s.length)
    (ht : t ≠ []) (h : b ∈ clampPrompt (s ++ t)) : b ∈ s ∨ b ∈ truncationMarker := by
  have hlen : ¬ (s ++ t).length ≤ promptMaxBytes := by
    have := List.length_pos_iff.mpr ht
    rw [List.length_append]
    omega
  unfold clampPrompt at h
  rw [if_neg hlen, List.mem_append] at h
  obtain h | h := h
  · have hcut := backUp_le (s ++ t) (promptMaxBytes - truncationMarker.length)
    rw [List.take_append_of_le_length (by omega)] at h
    exact .inl (List.mem_of_mem_take h)
  · exact .inr h

end AgentOps.AgenticRun
