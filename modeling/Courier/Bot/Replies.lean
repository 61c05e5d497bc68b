import Courier.Message
import Courier.Text.Blank

/-!
The bot's commands.

A command is the first word of a message: a slash, a name, and perhaps an at sign and the bot's
name. Replies are messages like all others.
-/

namespace Courier.Bot

/-- The commands and what they do. -/
def help : List String :=
  ["/start: check that the bot is running", "/id: show this chat's ID for job payloads",
    "/help: list commands"]

/-- The name of the command that a text is, if it is one. -/
def command? (text : String) : Option String :=
  match Text.words text with
  | [] => none
  | w :: _ =>
    match w.toList with
    | '/' :: cs => some (String.ofList (cs.takeWhile (· ≠ '@')))
    | _ => none

/-- The reply to a text in a chat, if it is a command that the bot knows. -/
def reply? (text : String) (chatId : Int) : Option Message :=
  match command? text with
  | some "start" =>
    some (.new chatId "success.html"
      (.string "Herald is running. Send /id to get this chat's ID."))
  | some "id" => some (.new chatId "info.html" (.string ("Chat ID: " ++ toString chatId)))
  | some "help" => some (.new chatId "list.html" (.array (help.map .string)))
  | _ => none

/-- A message that comes in. -/
structure Incoming where
  chatId : Int
  /-- Whether it is from a bot. -/
  fromBot : Bool
  text : Option String

/-- What is published in answer to a message; bots get no answer. -/
def answer (m : Incoming) : Option Message :=
  if m.fromBot then none else m.text.bind fun t => reply? t m.chatId

/-- A token can be used unless it is blank. -/
def usableToken (token : String) : Bool := !Text.blank token

end Courier.Bot
