import MyLua.Message.Framing

/-!
# What the Receiver Accepts

Any process may put a message of any length and content on the queue. `enqueue` takes the first
eight bytes for the length of the rest and compares it with the length of what `msgrcv` returned,
in wrapping unsigned arithmetic; longer messages than its buffer come cut off.

## Main results

- `receivedMtext_wellFramed`, `receivedMtext_refused`: what `enqueue` makes of what it received.
- `enqueue_accepts_iff`: it accepts the well-framed messages and no others.
-/

namespace MyLua.Message

open MyLua.Foundation

variable {strerror : Int → Bytes}

/-- The first eight bytes are the length of the others, and there is room for them. -/
def WellFramed (body : Bytes) : Prop :=
  8 ≤ body.length ∧ body.length ≤ 65548 ∧ fromLE (body.take 8) = body.length - 8

instance (body : Bytes) : Decidable (WellFramed body) := inferInstanceAs (Decidable (_ ∧ _))

/-- The length field of a message that has one. -/
theorem mlen_received {old mtext : Bytes} (h8 : 8 ≤ mtext.length) :
    mlen (overwrite old 0 mtext) = fromLE (mtext.take 8) := by
  have hlong : sizeofLong = 8 := rfl
  rw [mlen, hlong, overwrite_zero, List.take_append_of_le_length h8]

/-- The payload of a well-framed message, whatever the buffer held before. -/
theorem push_wellFramed {body : Bytes} (h : WellFramed body) (old : Bytes) (ret : Int) :
    push ret (overwrite old 0 body) = some (ret, body.drop 8) := by
  obtain ⟨h8, hmax, hmlen⟩ := h
  have hsize : mcontentSize = 65540 := rfl
  rw [push, mlen_received h8, hmlen, if_pos (by omega)]
  -- The bytes behind the length field that belong to the message.
  have hlong : sizeofLong = 8 := rfl
  have hdrop : (overwrite old 0 body).drop sizeofLong = body.drop 8 ++ old.drop body.length := by
    rw [overwrite_zero, hlong, List.drop_append_of_le_length h8]
  have hlen : (body.drop 8).length = body.length - 8 := List.length_drop
  rw [mcontent, hdrop, List.take_take, Nat.min_eq_left (by omega), ← hlen, List.take_left]

/-- A well-framed message is accepted. -/
theorem receivedMtext_wellFramed {body : Bytes} (h : WellFramed body) :
    receivedMtext body = some ((body.length : Int) - 8, body.drop 8) := by
  obtain ⟨h8, hmax, hmlen⟩ := id h
  have hsize : sizeofMtext = 65552 := rfl
  have hlong : sizeofLong = 8 := rfl
  have hok : ¬ (body.length < sizeofLong ∨ body.length + 4 > sizeofMtext ∨
      body.length ≠ (mlen (overwrite zeroMtext 0 body) + sizeofLong) % 2 ^ 64) := by
    rw [mlen_received h8, hmlen]
    omega
  simp only [receivedMtext, if_neg hok]
  rw [push_wellFramed h]
  rfl

/-- What is not well framed is refused, also if the length field wraps around. -/
theorem receivedMtext_refused {mtext : Bytes} (hroom : mtext.length ≤ sizeofMtext)
    (h : ¬ WellFramed mtext) : ∃ t, receivedMtext mtext = some (-2, t) := by
  have hsize : sizeofMtext = 65552 := rfl
  have hlong : sizeofLong = 8 := rfl
  have hbad : mtext.length < sizeofLong ∨ mtext.length + 4 > sizeofMtext ∨
      mtext.length ≠ (mlen (overwrite zeroMtext 0 mtext) + sizeofLong) % 2 ^ 64 := by
    by_contra hok
    rw [not_or, not_or, not_lt, not_lt, not_not] at hok
    obtain ⟨h8, hmax, hlen⟩ := hok
    -- The field is a number of 64 bits, so the sum cannot wrap to eight or more.
    have hfield := fromLE_lt (mtext.take 8)
    have h256 : 256 ^ (mtext.take 8).length = 2 ^ 64 := by
      rw [List.length_take, Nat.min_eq_left (by omega)]
      decide
    rw [mlen_received (by omega)] at hlen
    exact h ⟨by omega, by omega, by omega⟩
  have hbuffer : (overwrite zeroMtext 0 mtext).length = sizeofMtext := by
    rw [length_overwrite (by rw [length_zeroMtext]; omega), length_zeroMtext]
  simp only [receivedMtext, if_pos hbad]
  exact pushError_eq hbuffer (-2) (sizeText "getmsg" mtext.length)

/-- **Accepted messages**: an `enqueue` that takes a message with any bytes, from any queue,
returns a status of 0 or more if and only if the message is well framed. It then returns the length
and the bytes behind the length field; they lie inside `mcontent` and do not depend on what the
buffer held before. For every other message, one that was cut off included, the status is -2. -/
theorem enqueue_accepts_iff {body : Bytes} {mtype type flag : Int} {acts : List SysAct}
    {rest : Program} (h : (enqueue strerror type flag).Does acts rest) {a : SysAct} (ha : a ∈ acts)
    {w w' : Option Queue} (ht : Takes w a w' ⟨mtype, body⟩) :
    ∃ ret text, rest = .ret (some (ret, text)) ∧ (0 ≤ ret ↔ WellFramed body) ∧
      (WellFramed body → ret = (body.length : Int) - 8 ∧ text = body.drop 8 ∧
        text.length ≤ mcontentSize ∧
        ∀ old : Bytes, old.length = sizeofMtext →
          push ret (overwrite old 0 body) = some (ret, text)) ∧
      (¬ WellFramed body → ret = -2) := by
  have hsize : sizeofMtext = 65552 := rfl
  have hcap : mcontentSize = 65540 := rfl
  -- The call returned what it makes of the bytes that fit its buffer.
  obtain rfl := received_of_takes h ha ht
  by_cases hbody : WellFramed body
  · obtain ⟨h8, hmax, -⟩ := id hbody
    have hwhole : body.take sizeofMtext = body := List.take_of_length_le (by omega)
    have hlen : (body.drop 8).length = body.length - 8 := List.length_drop
    rw [hwhole, receivedMtext_wellFramed hbody]
    refine ⟨_, _, rfl, ?_, fun _ => ⟨rfl, rfl, by omega, fun old _ => ?_⟩,
      fun hno => absurd hbody hno⟩
    · simp only [hbody, iff_true]
      omega
    · exact push_wellFramed hbody old _
  · have hcut : ¬ WellFramed (body.take sizeofMtext) := by
      by_cases hlong : body.length ≤ sizeofMtext
      · rwa [List.take_of_length_le hlong]
      · -- What was cut off is as long as the buffer, and too long.
        intro hframed
        have hmax := hframed.2.1
        rw [List.length_take] at hmax
        omega
    obtain ⟨t, hrefused⟩ := receivedMtext_refused (by rw [List.length_take]; omega) hcut
    rw [hrefused]
    refine ⟨_, _, rfl, ?_, fun hyes => absurd hyes hbody, fun _ => rfl⟩
    simp only [hbody, iff_false]
    decide

/-- A frame with the payload `"hi"`, and a message whose length field wraps around: `2 ^ 64 - 1`
and 8 are 7. -/
theorem enqueue_accepts_hi :
    (∃ acts text, (enqueue (fun _ => []) 0 0).Does acts (.ret (some (2, text)))) ∧
    ∃ acts text, (enqueue (fun _ => []) 0 0).Does acts (.ret (some (-2, text))) := by
  have htakes : ∀ body : Bytes, body.length ≤ sizeofMtext →
      Takes (some ⟨5, [⟨7, body⟩]⟩)
        ⟨.msgrcv 5 sizeofMtext 0 (nowait 0 ||| MSG_NOERROR), .ok (7, body.take sizeofMtext)⟩
        (some ⟨5, []⟩) ⟨7, body⟩ := fun body hbody =>
    ⟨.received (m := ⟨7, body⟩) rfl (.inl hbody), rfl, 5, sizeofMtext, 0, _, [], rfl, rfl⟩
  have hdoes : ∀ body : Bytes, (enqueue (fun _ => []) 0 0).Does
      [⟨.msgget 0, .ok 5⟩,
        ⟨.msgrcv 5 sizeofMtext 0 (nowait 0 ||| MSG_NOERROR), .ok (7, body.take sizeofMtext)⟩]
      (.ret (receivedMtext (body.take sizeofMtext))) := fun body => .call (.call (.nothing _))
  constructor
  · obtain ⟨ret, text, hrest, -, hret, -⟩ := enqueue_accepts_iff (hdoes (frame (ascii "hi")))
      (List.mem_cons_of_mem _ List.mem_cons_self) (htakes _ (by decide))
    obtain rfl : ret = 2 := (hret (by decide)).1
    exact ⟨_, text, hrest ▸ hdoes (frame (ascii "hi"))⟩
  · obtain ⟨ret, text, hrest, -, -, hret⟩ := enqueue_accepts_iff (hdoes (List.replicate 8 255))
      (List.mem_cons_of_mem _ List.mem_cons_self) (htakes _ (by decide))
    obtain rfl : ret = -2 := hret (by decide)
    exact ⟨_, text, hrest ▸ hdoes (List.replicate 8 255)⟩

end MyLua.Message
