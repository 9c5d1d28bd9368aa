import Infernode.Audit.Agree
import Infernode.Net.Urlhost
import Infernode.Net.Redirect
import Infernode.Emu.Exportfs
import Infernode.Emu.Exprotocol
import Infernode.Net.Dialaddr
import Infernode.Net.Eipfmt
import Infernode.Veltro.Schedule
import Infernode.Styx.Roundtrip
import Infernode.Vac.Roundtrip
import Infernode.Veltro.Injection
import Infernode.Lib.Ethrlp
import Infernode.Lib.Jsonset
import Infernode.Veltro.Spending
import Infernode.Styx.S2M
import Infernode.Dis.Integer
import Infernode.Dis.Strops
import Infernode.Veltro.Triage
import Infernode.Veltro.Plane
import Infernode.Dis.Handlers
import Infernode.Dis.Cases
import Infernode.Jit.Allornothing
import Infernode.Veltro.Nspath
import Infernode.Veltro.Dashboard
import Infernode.Lib.Lockout
import Infernode.Emu.Sysfile
import Infernode.Emu.Fgrp
import Infernode.Emu.Devmnt
import Infernode.Emu.Faithful
import Infernode.Dis.Convert
import Infernode.Lib9.Dircodec
import Infernode.Emu.Qaccounts
import Infernode.Emu.Qtraffic
import Infernode.Lib.Gitpatch
import Infernode.Lib.Gitresolve
import Infernode.Lib.Gitpush
import Infernode.Lib9.Cleanname
import Infernode.Net.Cookies
import Infernode.Styx.Dirpasses
import Infernode.Veltro.Toolqids
import Infernode.Veltro.Toolcalls
import Infernode.Veltro.Checkreadonly
import Infernode.Net.Jar
import Infernode.Styx.Stream
