import Refit.Chat.Url

namespace Refit.Chat

structure Headers where
  apiKey : Option String := none
  version : Option String := none
  authorization : Option String := none
  deriving DecidableEq, Repr

structure Request where
  url : Url
  headers : Headers
  body : String
  deriving DecidableEq, Repr

structure TransportFault where
  timeout : Bool := false
  connect : Bool := false
  request : Bool := false
  text : String
  deriving DecidableEq, Repr

/-- What comes back: a response with a status, a broken connection, or any other fault of the
transport. A response that is no success and loses its body counts as one with an empty body. -/
inductive Exchange where
  | response (status : Nat) (body : String)
  | broken
  | failed (fault : TransportFault)
  deriving DecidableEq, Repr

def TransportFault.broken (url : Url) : TransportFault where
  request := true
  text := "error sending request for url (" ++ url.text ++ ")"

def TransportFault.isPassing (f : TransportFault) : Bool := f.timeout || f.connect || f.request

def contentOf (status : Nat) (body : String) : String :=
  if status = 204 ∨ status = 304 then "" else body

def isSuccess (status : Nat) : Bool := 200 ≤ status && status < 300

def reasons : List (Nat × String) :=
  [(300, "Multiple Choices"), (301, "Moved Permanently"), (302, "Found"), (303, "See Other"),
   (304, "Not Modified"), (305, "Use Proxy"), (307, "Temporary Redirect"),
   (308, "Permanent Redirect"), (400, "Bad Request"), (401, "Unauthorized"),
   (402, "Payment Required"), (403, "Forbidden"), (404, "Not Found"),
   (405, "Method Not Allowed"), (406, "Not Acceptable"),
   (407, "Proxy Authentication Required"), (408, "Request Timeout"), (409, "Conflict"),
   (410, "Gone"), (411, "Length Required"), (412, "Precondition Failed"),
   (413, "Payload Too Large"), (414, "URI Too Long"), (415, "Unsupported Media Type"),
   (416, "Range Not Satisfiable"), (417, "Expectation Failed"), (418, "I'm a teapot"),
   (421, "Misdirected Request"), (422, "Unprocessable Entity"), (423, "Locked"),
   (424, "Failed Dependency"), (425, "Too Early"), (426, "Upgrade Required"),
   (428, "Precondition Required"), (429, "Too Many Requests"),
   (431, "Request Header Fields Too Large"), (451, "Unavailable For Legal Reasons"),
   (500, "Internal Server Error"), (501, "Not Implemented"), (502, "Bad Gateway"),
   (503, "Service Unavailable"), (504, "Gateway Timeout"), (505, "HTTP Version Not Supported"),
   (506, "Variant Also Negotiates"), (507, "Insufficient Storage"), (508, "Loop Detected"),
   (510, "Not Extended"), (511, "Network Authentication Required")]

def statusText (status : Nat) : String :=
  toString status ++ " " ++ (reasons.lookup status).getD "<unknown status code>"

end Refit.Chat
