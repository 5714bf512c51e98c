import IdearNiu.Http.UrlStability

namespace IdearNiu.Url

open Words
open Cutting (before onward Stops)

section

variable (haveSsl : Bool) (disabled : Scheme → Bool)

end

section

variable (haveSsl : Bool) (disabled : Scheme → Bool)

end

end IdearNiu.Url
