import QuicKeys.Daemon.Report

/-!
# The HID socket

`HidSocket`: a stream socket that is connected when first needed and closed when a send
fails. What the peer got is recorded per connection; the code itself keeps the descriptor
only, so `fd_ < 0` is `fd = none`.
-/

namespace QuicKeys.Daemon

/-- The result of `::send` for the 8 bytes of a report. -/
inductive SendResult
  | accepted (n : ℕ) (pos : 0 < n) (le : n ≤ 8)
  | error

/-- All 8 bytes were accepted. -/
def SendResult.full : SendResult := .accepted 8 (by decide) (by decide)

/-- A send that did not fail: the report, and how many of its bytes were accepted. -/
structure Sent where
  report : HidReport8
  count : ℕ
  pos : 0 < count
  le : count ≤ 8

/-- The bytes that got on the wire. -/
def Sent.bytes (x : Sent) : List UInt8 := x.report.bytes.toList.take x.count

/-- The socket: the sends on the current connection, if there is one, and those on the
connections that were closed. -/
structure HidSocket where
  fd : Option (List Sent) := none
  closed : List (List Sent) := []

/-- `ensure_connected`; `connects` says whether `::socket` and `::connect` succeed. -/
def ensureConnected (connects : Bool) (h : HidSocket) : Bool × HidSocket :=
  match h.fd with
  | some _ => (true, h)
  | none => if connects then (true, { h with fd := some [] }) else (false, h)

/-- `::send` on the open descriptor. Only a negative result is looked at: the descriptor is
closed then, and kept after a short send. -/
def sendOpen (res : SendResult) (r : HidReport8) (h : HidSocket) : HidSocket :=
  match h.fd with
  | none => h
  | some sent =>
    match res with
    -- the rest of a short send is not sent again
    | .accepted n pos le => { h with fd := some (sent ++ [⟨r, n, pos, le⟩]) }
    -- the report is dropped together with the connection
    | .error => { fd := none, closed := h.closed ++ [sent] }

/-- `send_report`. -/
def sendReport (connects : Bool) (res : SendResult) (r : HidReport8) (h : HidSocket) :
    HidSocket :=
  let (connected, h) := ensureConnected connects h
  if connected then sendOpen res r h else h

lemma Sent.length_bytes (x : Sent) : x.bytes.length = x.count := by
  rw [Sent.bytes, List.length_take, HidReport8.length_toList, Nat.min_eq_left x.le]

/-- A report that was accepted as a whole is on the wire as a whole. -/
lemma Sent.bytes_of_count_eq {x : Sent} (h : x.count = 8) :
    x.bytes = x.report.bytes.toList := by
  rw [Sent.bytes, h, List.take_of_length_le (HidReport8.length_toList _).le]

/-- Every send that did not fail, oldest first. -/
def HidSocket.sent (h : HidSocket) : List Sent := h.closed.flatten ++ h.fd.getD []

/-! ## What the operations do -/

section Operations

variable (connects : Bool) (h : HidSocket) (r : HidReport8)

@[simp] lemma ensureConnected_sent : (ensureConnected connects h).2.sent = h.sent := by
  unfold ensureConnected HidSocket.sent
  split
  · rfl
  · rename_i hfd
    cases connects <;> simp [hfd]

/-- It reports whether the socket is connected. -/
lemma ensureConnected_fst :
    (ensureConnected connects h).1 = (ensureConnected connects h).2.fd.isSome := by
  unfold ensureConnected
  split
  · rename_i hfd
    simp [hfd]
  · rename_i hfd
    cases connects <;> simp [hfd]

lemma ensureConnected_of_isSome (hfd : h.fd.isSome = true) :
    ensureConnected connects h = (true, h) := by
  unfold ensureConnected
  split
  · rfl
  · rename_i hnone
    simp [hnone] at hfd

lemma sendOpen_sent_of_isSome (n : ℕ) (pos : 0 < n) (le : n ≤ 8) (hfd : h.fd.isSome = true) :
    (sendOpen (.accepted n pos le) r h).sent = h.sent ++ [⟨r, n, pos, le⟩] := by
  rcases Option.isSome_iff_exists.mp hfd with ⟨sent, hsent⟩
  simp [sendOpen, HidSocket.sent, hsent]

@[simp] lemma sendOpen_error_sent : (sendOpen .error r h).sent = h.sent := by
  unfold sendOpen HidSocket.sent
  split
  · rfl
  · rename_i sent hsent
    simp [hsent]

/-- **What one call adds to the wire**: nothing, or the accepted part of its report. -/
theorem sendReport_sent (res : SendResult) :
    (sendReport connects res r h).sent
      = h.sent ++ match (ensureConnected connects h).1, res with
        | true, .accepted n pos le => [⟨r, n, pos, le⟩]
        | _, _ => [] := by
  unfold sendReport
  dsimp only
  cases hc : (ensureConnected connects h).1 with
  | false => simp
  | true =>
    rw [if_pos rfl]
    rw [ensureConnected_fst] at hc
    cases res with
    | accepted n pos le =>
      rw [sendOpen_sent_of_isSome _ _ n pos le hc, ensureConnected_sent]
    | error => simp

/-- After a call whose send is not short, the socket is closed or the report was the last
one on its connection. -/
theorem sendReport_fd (sends : Bool) :
    (sendReport connects (if sends then .full else .error) r h).fd = none
      ∨ ∃ sent, (sendReport connects (if sends then .full else .error) r h).fd
          = some (sent ++ [⟨r, 8, by decide, by decide⟩]) := by
  unfold sendReport
  dsimp only
  cases hc : (ensureConnected connects h).1 with
  | false =>
    rw [ensureConnected_fst] at hc
    left
    simpa using hc
  | true =>
    rw [ensureConnected_fst] at hc
    rcases Option.isSome_iff_exists.mp hc with ⟨sent, hsent⟩
    rw [if_pos rfl, sendOpen, hsent]
    cases sends with
    | true => exact Or.inr ⟨sent, rfl⟩
    | false => exact Or.inl rfl

end Operations

end QuicKeys.Daemon
